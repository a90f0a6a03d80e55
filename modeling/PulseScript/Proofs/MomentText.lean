import Mathlib
import PulseScript.Proofs.Assembling
import PulseScript.Proofs.Couplers

/-!
# The lines of a moment

The instructions and blocks of a moment are read back as its operations, each in the form
of its instruction and in the order of the labels, with all measurements as one behind
them. An operation on a coupler may come back with its two qubits exchanged, because the
coupler's own order decides.
-/
namespace PulseScript

/-- The action that a reader finds: the gate of the instruction, if it is a gate. -/
def Action.canonical (a : Action) : Action :=
  match a.resolve? with
  | some (.instruction m) =>
    match m.gate? with
    | some g => .gate (.standard g)
    | none => a
  | _ => a

/-- The operation in the form in which a reader finds it. -/
def Operation.canonical : Operation → Operation
  | .act a qs => .act a.canonical qs
  | op => op

/-- The second operation is the first in the form of its instruction, where an operation on
a coupler may have its qubits exchanged. -/
inductive Operation.Echoes : Operation → Operation → Prop where
  | same (a : Action) (qs : List Qubit) : Echoes (.act a qs) (.act a.canonical qs)
  | exchanged (p q : Qubit) :
    Echoes (.act (.gate (.standard .cz)) [p, q]) (.act (.gate (.standard .cz)) [q, p])

theorem Operation.Echoes.mem_qubits {x y : Operation} (h : x.Echoes y) (q : Qubit) :
    q ∈ y.qubits ↔ q ∈ x.qubits := by
  cases h with
  | same a qs => rfl
  | exchanged p r => simp [qubits, or_comm]

/-- Operations stay apart if each is replaced by one on the same qubits. -/
theorem Operation.pairwise_apart {xs ys : List Operation}
    (h : List.Forall₂ (fun x y : Operation => ∀ q, q ∈ y.qubits ↔ q ∈ x.qubits) xs ys)
    (hapart : xs.Pairwise Operation.Apart) : ys.Pairwise Operation.Apart := by
  induction h with
  | nil => exact .nil
  | cons hxy hrest ih =>
    obtain ⟨hfirst, hpair⟩ := List.pairwise_cons.mp hapart
    refine List.pairwise_cons.mpr ⟨fun z hz q hq hqz => ?_, ih hpair⟩
    obtain ⟨x', hx', hz'⟩ := forall₂_left_of_mem hrest hz
    exact hfirst x' hx' ((hxy q).mp hq) ((hz' q).mp hqz)

/-- The reader finds again what the compiler names: the labels of the given qubits stand for those
qubits, both know the same couplers, and the labels and names can stand in a line. -/
structure Wiring.Follows (w : Wiring) (t : Target) (qs : List Qubit) : Prop where
  labels : ∀ q ∈ qs, ∀ l, t.labelOf? q = some l → w.qubitOf? l = some q ∧ IsWord l
  couplers : w.couplers = t.couplers
  reachable : ∀ r, t.couplers = some r → r.Reachable
  names : ∀ r, t.couplers = some r → ∀ name pair, r.pairFor? name = some pair → IsWord name

structure Wiring.Understands (w : Wiring) (t : Target) (qs : List Qubit) : Prop
    extends Wiring.Follows w t qs where
  agents : ∀ a ∈ t.agents, IsWord a

theorem Wiring.Follows.mono {w : Wiring} {t : Target} {qs rs : List Qubit}
    (h : w.Follows t qs) (hsub : ∀ q ∈ rs, q ∈ qs) : w.Follows t rs :=
  ⟨fun q hq => h.labels q (hsub q hq), h.couplers, h.reachable, h.names⟩

/-- Rules are about gates, noise and markers only. -/
theorem IgnorePolicy.ignoresAction_eq_false (p : IgnorePolicy) {a : Action}
    (h : a = .measure ∨ (∃ ns, a = .delay ns) ∨ ∃ d, a = .decoupling d) :
    p.ignoresAction a = false := by
  rw [ignoresAction, List.any_eq_false]
  intro r _
  rcases h with rfl | ⟨ns, rfl⟩ | ⟨d, rfl⟩ <;> cases r <;> simp [IgnoreRule.matchesAction]

/-- An instruction for one gate on one qubit is read as a gate on one qubit. -/
theorem Mnemonic.gate?_of_qubit {m : Mnemonic} (h : m.operands = .qubit) :
    ∃ g, m.gate? = some g ∧ g.arity = 1 := by
  cases m <;> first | exact ⟨_, rfl, rfl⟩ | exact absurd h (by decide)

namespace Wiring

variable {w : Wiring} {t : Target}

theorem ofGate_eq_ok {g : StandardGate} {qs : List Qubit}
    (h : (Action.gate (.standard g)).Takes qs) :
    liftBuild (Operation.ofGate (.standard g) qs) = .ok (.act (.gate (.standard g)) qs) := by
  rw [(Operation.ofGate_eq_ok_iff _ _ _).mpr ⟨h, rfl⟩]
  rfl

/-- An instruction on one qubit is read as its gate. -/
theorem reads_gate {m : Mnemonic} {g : StandardGate} {label : String} {q : Qubit}
    (hg : m.gate? = some g) (harity : g.arity = 1) (hq : w.qubitOf? label = some q) :
    w.Reads (.gate m label) (.act (.gate (.standard g)) [q]) := by
  refine ⟨rfl, by simp [Statement.isCoupled], ?_⟩
  intro line
  have htakes : (Action.gate (.standard g)).Takes [q] := by
    simp [Action.Takes, Gate.arity, harity]
  have hqubit := (w.qubit_eq_ok_iff line label q).mpr hq
  simp [Statement.operation?, Mnemonic.gateAt, hg, hqubit, ofGate_eq_ok htakes, bind,
    Except.bind, pure, Except.pure, Except.toOption, Operation.reread?]

/-- An instruction on a coupler is read as a gate on the qubits that the coupler joins. -/
theorem reads_coupled {r : CouplerRegistry} {name a b : String} {p q : Qubit}
    (hr : w.couplers = some r) (hpair : r.pairFor? name = some (a, b))
    (hp : w.qubitOf? a = some p) (hq : w.qubitOf? b = some q) (hne : p ≠ q) :
    w.Reads (.coupled .cz name) (.act (.gate (.standard .cz)) [p, q]) := by
  refine ⟨rfl, by simp [hr], ?_⟩
  intro line
  have htakes : (Action.gate (.standard .cz)).Takes [p, q] := by
    simp [Action.Takes, Gate.arity, StandardGate.arity, hne]
  have hqubits := And.intro ((w.qubit_eq_ok_iff line a p).mpr hp) ((w.qubit_eq_ok_iff line b q).mpr hq)
  simp [Statement.operation?, pair, hr, hpair, Mnemonic.gateAt, Mnemonic.gate?, hqubits,
    ofGate_eq_ok htakes, bind, Except.bind, pure, Except.pure, Except.toOption, Operation.reread?]

theorem reads_idle {label : String} {ns : UInt64} {q : Qubit} (hq : w.qubitOf? label = some q) :
    w.Reads (.idle label ns) (.act (.delay ns) [q]) := by
  refine ⟨rfl, by simp [Statement.isCoupled], ?_⟩
  intro line
  have hqubit := (w.qubit_eq_ok_iff line label q).mpr hq
  simp [Statement.operation?, hqubit, Operation.ofDelay, bind, Except.bind, pure,
    Except.pure, Except.toOption, Operation.reread?]

/-- A block that was written for a sequence is read as what its numbers are read as. -/
theorem reads_context {d : Decoupling} {label : String} {q : Qubit} (body : List String)
    (hq : w.qubitOf? label = some q) :
    w.Reads (.context ⟨d.gateContent, Decoupling.targetsContent label, body⟩)
      (.act (.decoupling d) [q]) := by
  refine ⟨rfl, by simp [Statement.isCoupled], ?_⟩
  intro line
  have hdecode := Decoupling.decode_written d label
    ⟨d.gateContent, Decoupling.targetsContent label, body⟩ line rfl rfl
  rw [Statement.operation?, toOption_bind, hdecode, Operation.reread?]
  have hqubit := (w.qubit_eq_ok_iff line label q).mpr hq
  cases d.reread?.filter fun e => e.validate.isOk <;>
    simp [hqubit, Operation.ofDecoupling, bind, Except.bind, pure, Except.pure,
      Except.toOption]

/-- A line of measured labels is read as one measurement. -/
theorem reads_measure {labels : List String} {qs : List Qubit} (hne : qs ≠ []) (hnodup : qs.Nodup)
    (h : List.Forall₂ (fun l q => w.qubitOf? l = some q) labels qs) :
    w.Reads (.measure labels) (.act .measure qs) := by
  refine ⟨rfl, by simp [Statement.isCoupled], ?_⟩
  intro line
  have hmap : labels.mapM (w.qubit line) = .ok qs :=
    (mapM_eq_ok_iff _ _ _).mpr (h.imp fun _ _ hq => (w.qubit_eq_ok_iff line _ _).mpr hq)
  have hmeasure : liftBuild (Operation.ofMeasure qs) = .ok (.act .measure qs) := by
    rw [(Operation.ofMeasure_eq_ok_iff _ _).mpr ⟨⟨hne, hnodup⟩, rfl⟩]
    rfl
  simp [Statement.operation?, hmap, hmeasure, bind, Except.bind, pure, Except.pure,
    Except.toOption, Operation.reread?]

/-- The lines of an entry are read as the operation that they were written for. -/
theorem Follows.entry {a : Action} {qs : List Qubit} {key : String} {lines : List String}
    (h : w.Follows t qs) (htakes : a.Takes qs) (hgives : t.Gives a qs (.entry key lines)) :
    ∃ s r, Spells lines [s] ∧ w.Reads s r ∧ (Operation.act a qs).Echoes r := by
  cases hgives with
  | decoupling hi hl hd =>
    rename_i d q
    obtain ⟨hq, hword⟩ := h.labels q (by simp) key hl
    obtain ⟨body, hspells⟩ := spells_contextLines hword hd
    exact ⟨_, _, hspells, reads_context body hq, .same (.decoupling d) [q]⟩
  | pulse hi hr hm hl =>
    rename_i m q
    obtain ⟨hq, hword⟩ := h.labels q (by simp) key hl
    obtain ⟨g, hg, harity⟩ := Mnemonic.gate?_of_qubit hm
    have hcanonical : a.canonical = .gate (.standard g) := by
      simp [Action.canonical, hr, hg]
    exact ⟨_, _, spells_gate hm hword, reads_gate hg harity hq, hcanonical ▸ .same a [q]⟩
  | coupled hi hp hq hr hn =>
    rename_i p q lp lq name r
    obtain ⟨hp', -⟩ := h.labels p (by simp) lp hp
    obtain ⟨hq', -⟩ := h.labels q (by simp) lq hq
    have hne : p ≠ q := by
      have hnodup := htakes.2
      simpa using hnodup
    have hcouplers : w.couplers = some r := by rw [h.couplers, hr]
    -- the order of the qubits that come back is the coupler's, not the operation's
    rcases (h.reachable r hr).indexed.pairFor?_of_nameFor? hn with hpair | hpair
    · exact ⟨_, _, spells_coupled (h.names r hr name _ hpair),
        reads_coupled hcouplers hpair hp' hq' hne, .same _ [p, q]⟩
    · exact ⟨_, _, spells_coupled (h.names r hr name _ hpair),
        reads_coupled hcouplers hpair hq' hp' hne.symm, .exchanged p q⟩
  | idle hi hl =>
    rename_i ns q
    obtain ⟨hq, hword⟩ := h.labels q (by simp) key hl
    exact ⟨_, _, spells_idle hword ns, reads_idle hq, .same (.delay ns) [q]⟩

end Wiring

/-- Whether the operation is written as an instruction or a block of its own. -/
def Target.isEntry (t : Target) : Operation → Bool
  | .act .measure _ => false
  | .act a _ => !t.policy.ignoresAction a && decide (a.resolve? ≠ some .identity)
  | .subcircuit .. => false

theorem Target.isEntry_act {t : Target} {a : Action} (ha : a ≠ .measure) (qs : List Qubit) :
    t.isEntry (.act a qs) = true ↔
      t.policy.ignoresAction a = false ∧ a.resolve? ≠ some .identity := by
  cases a with
  | measure => exact absurd rfl ha
  | _ => simp [isEntry]

structure Entry (w : Wiring) where
  key : String
  lines : List String
  statement : Statement
  source : Operation
  result : Operation
  spells : Spells lines [statement]
  reads : w.Reads statement result
  echoes : source.Echoes result

section Moment

variable {w : Wiring} {t : Target} {qs : List Qubit} {ops : List Operation} {parts : List Part}

/-- An action gives an entry exactly if it is written as one. -/
theorem Target.Gives.isEntry_cases {a : Action} {rs : List Qubit} {part : Part}
    (h : t.Gives a rs part) :
    (t.isEntry (.act a rs) = false ∧ part.entry? = none) ∨
      (t.isEntry (.act a rs) = true ∧ ∃ key lines, part = .entry key lines) := by
  cases h with
  | ignored hi =>
    refine .inl ⟨?_, rfl⟩
    by_cases ha : a = .measure
    · subst ha; rfl
    · rw [← Bool.not_eq_true, Target.isEntry_act ha]
      simp [hi]
  | identity hi hr =>
    refine .inl ⟨?_, rfl⟩
    have ha : a ≠ .measure := by rintro rfl; exact absurd hr (by decide)
    rw [← Bool.not_eq_true, Target.isEntry_act ha]
    simp [hr]
  | measure hi hl => exact .inl ⟨rfl, rfl⟩
  | decoupling hi hl hd =>
    exact .inr ⟨(Target.isEntry_act (by simp) _).mpr ⟨hi, by simp [Action.resolve?]⟩, _, _, rfl⟩
  | pulse hi hr hm hl =>
    have ha : a ≠ .measure := by
      rintro rfl
      obtain rfl : Mnemonic.measure = _ := by simpa [Action.resolve?] using hr
      exact absurd hm (by decide)
    exact .inr ⟨(Target.isEntry_act ha _).mpr ⟨hi, by simp [hr]⟩, _, _, rfl⟩
  | coupled hi hp hq hr hn =>
    exact .inr ⟨(Target.isEntry_act (by simp) _).mpr ⟨hi, by decide⟩, _, _, rfl⟩
  | idle hi hl =>
    exact .inr ⟨(Target.isEntry_act (by simp) _).mpr ⟨hi, by simp [Action.resolve?]⟩, _, _, rfl⟩

/-- The entry of an action is read as the action. -/
theorem Wiring.Follows.exists_entry {a : Action} {rs : List Qubit} {part : Part}
    (h : w.Follows t rs) (htakes : a.Takes rs) (hgives : t.Gives a rs part) :
    (t.isEntry (.act a rs) = false ∧ part.entry? = none) ∨
      ∃ e : Entry w, part.entry? = some (e.key, e.lines) ∧ e.source = .act a rs ∧
        t.isEntry (.act a rs) = true := by
  rcases hgives.isEntry_cases with hnone | ⟨hi, key, lines, rfl⟩
  · exact .inl hnone
  · obtain ⟨s, r, hs, hr, he⟩ := h.entry htakes hgives
    exact .inr ⟨⟨key, lines, s, .act a rs, r, hs, hr, he⟩, rfl, rfl, hi⟩

theorem Wiring.Follows.exists_entry_of_part {op : Operation} {part : Part}
    (h : w.Follows t op.qubits) (hop : op.WellFormed) (hpart : operationPart t op = .ok part) :
    (t.isEntry op = false ∧ part.entry? = none) ∨
      ∃ e : Entry w, part.entry? = some (e.key, e.lines) ∧ e.source = op ∧ t.isEntry op = true := by
  cases op with
  | act a rs =>
    cases hop with
    | act htakes => exact h.exists_entry htakes ((t.actionPart_eq_ok_iff a rs part).mp hpart)
  | subcircuit c n rs =>
    obtain ⟨key, -, rfl⟩ := (operationPart_subcircuit_eq_ok_iff t c n rs part).mp hpart
    exact .inl ⟨rfl, rfl⟩

/-- The entries of a moment are those of its operations that are written as entries. -/
theorem Wiring.Follows.exists_entries (h : w.Follows t qs)
    (hqs : ∀ op ∈ ops, ∀ q ∈ op.qubits, q ∈ qs) (hops : ∀ op ∈ ops, op.WellFormed)
    (hparts : List.Forall₂ (fun op part => operationPart t op = .ok part) ops parts) :
    ∃ es : List (Entry w), es.map (fun e => (e.key, e.lines)) = parts.filterMap Part.entry? ∧
      es.map (·.source) = ops.filter t.isEntry := by
  induction hparts with
  | nil => exact ⟨[], rfl, rfl⟩
  | cons hpart _ ih =>
    rename_i op part ops parts _
    obtain ⟨es, hes, hsources⟩ := ih (fun x hx => hqs x (by simp [hx])) (fun x hx => hops x (by simp [hx]))
    rcases (h.mono (hqs op (by simp))).exists_entry_of_part (hops op (by simp)) hpart with
      ⟨hi, hnone⟩ | ⟨e, he, rfl, hi⟩
    · exact ⟨es, by simp [hes, hnone], by simp [hsources, hi]⟩
    · exact ⟨e :: es, by simp [hes, he], by simp [hsources, hi]⟩

/-- The entries of a moment are read as its operations that are written as entries, in the
order of their labels. -/
theorem Wiring.Follows.reads_entryLines (h : w.Follows t qs)
    (hqs : ∀ op ∈ ops, ∀ q ∈ op.qubits, q ∈ qs) (hops : ∀ op ∈ ops, op.WellFormed)
    (hparts : List.Forall₂ (fun op part => operationPart t op = .ok part) ops parts) :
    ∃ kept rs ss, kept.Perm (ops.filter t.isEntry) ∧ List.Forall₂ Operation.Echoes kept rs ∧
      Spells (entryLines parts) ss ∧ List.Forall₂ w.Reads ss rs := by
  obtain ⟨es, hes, hsources⟩ := h.exists_entries hqs hops hparts
  have hperm := List.mergeSort_perm es fun a b => decide (a.key ≤ b.key)
  have hsorted : (es.mergeSort fun a b => decide (a.key ≤ b.key)).map (fun e => (e.key, e.lines)) =
      sortByKey (parts.filterMap Part.entry?) := by
    rw [← hes, sortByKey]
    exact List.map_mergeSort fun _ _ _ _ => rfl
  generalize es.mergeSort (fun a b => decide (a.key ≤ b.key)) = sorted at hperm hsorted
  have hlines : entryLines parts = sorted.flatMap (·.lines) := by
    rw [entryLines, ← hsorted, List.flatMap_map]
  refine ⟨sorted.map (·.source), sorted.map (·.result), sorted.flatMap fun e => [e.statement],
    hsources ▸ hperm.map _, ?_, hlines ▸ .flatMap fun e _ => e.spells, ?_⟩
  · rw [List.forall₂_map_left_iff, List.forall₂_map_right_iff, List.forall₂_same]
    exact fun e _ => e.echoes
  · rw [← List.map_eq_flatMap, List.forall₂_map_left_iff, List.forall₂_map_right_iff,
      List.forall₂_same]
    exact fun e _ => e.reads

end Moment

def Operation.measured : Operation → List Qubit
  | .act .measure qs => qs
  | _ => []

theorem Operation.measured_subset (op : Operation) : op.measured ⊆ op.qubits := by
  intro q hq
  unfold measured at hq
  split at hq
  · exact hq
  · exact absurd hq (by simp)

/-- What measures some qubit is a measurement of those qubits. -/
theorem Operation.act_measured {op : Operation} (h : op.measured ≠ []) :
    .act .measure op.measured = op := by
  unfold measured at h ⊢
  split at h
  · rfl
  · exact absurd rfl h

namespace Target

/-- The label of a qubit; the empty text for a qubit without one. -/
def labelText (t : Target) (q : Qubit) : String := (t.labelOf? q).getD ""

theorem labelText_eq {t : Target} {q : Qubit} {l : String} (h : t.labelOf? q = some l) :
    t.labelText q = l := by
  simp [labelText, h]

theorem eq_map_labelText {t : Target} {qs : List Qubit} {ls : List String}
    (h : List.Forall₂ (fun q l => t.labelOf? q = some l) qs ls) : ls = qs.map t.labelText := by
  rw [← List.forall₂_eq_eq_eq, List.forall₂_map_right_iff]
  exact h.flip.imp fun l q hq => (labelText_eq hq).symm

def byLabel (t : Target) (qs : List Qubit) : List Qubit :=
  qs.mergeSort fun p q => decide (t.labelText p ≤ t.labelText q)

theorem byLabel_perm (t : Target) (qs : List Qubit) : (t.byLabel qs).Perm qs :=
  List.mergeSort_perm qs _

theorem byLabel_ne_nil (t : Target) {qs : List Qubit} (h : qs ≠ []) : t.byLabel qs ≠ [] := by
  intro he
  exact h (List.perm_nil.mp (he ▸ (t.byLabel_perm qs).symm))

theorem map_byLabel (t : Target) (qs : List Qubit) :
    (t.byLabel qs).map t.labelText = (qs.map t.labelText).mergeSort :=
  List.map_mergeSort fun _ _ _ _ => rfl

/-- One measurement in place of all measurements among the operations, of their qubits in
the order of the labels. -/
def merged (t : Target) (ops : List Operation) : List Operation :=
  match t.byLabel (ops.flatMap Operation.measured) with
  | [] => []
  | qs => [.act .measure qs]

variable {t : Target} {ops : List Operation}

theorem merged_of_eq_nil (h : ops.flatMap Operation.measured = []) : t.merged ops = [] := by
  simp [merged, h, byLabel]

theorem merged_of_ne_nil (h : ops.flatMap Operation.measured ≠ []) :
    t.merged ops = [.act .measure (t.byLabel (ops.flatMap Operation.measured))] := by
  unfold merged
  split
  · rename_i he
    exact absurd he (t.byLabel_ne_nil h)
  · rfl

end Target

section Moment

variable {w : Wiring} {t : Target} {qs : List Qubit} {ops : List Operation} {parts : List Part}

/-- Only measurements give labels to measure, and they always do. -/
theorem Target.Gives.labels {a : Action} {rs : List Qubit} {part : Part} (h : t.Gives a rs part) :
    (a = .measure ∧ List.Forall₂ (fun q l => t.labelOf? q = some l) rs part.labels) ∨
      (a ≠ .measure ∧ part.labels = []) := by
  by_cases ha : a = .measure
  · subst ha
    refine .inl ⟨rfl, ?_⟩
    cases h with
    | ignored hi =>
      rw [t.policy.ignoresAction_eq_false (.inl rfl)] at hi
      exact absurd hi (by simp)
    | identity hi hr => exact absurd hr (by decide)
    | measure hi hl => exact hl
    | pulse hi hr hm hl =>
      obtain rfl : Mnemonic.measure = _ := by simpa [Action.resolve?] using hr
      exact absurd hm (by decide)
  · refine .inr ⟨ha, ?_⟩
    cases h with
    | measure hi hl => exact absurd rfl ha
    | _ => rfl

theorem Operation.measured_act {a : Action} (ha : a ≠ .measure) (rs : List Qubit) :
    (Operation.act a rs).measured = [] := by
  cases a with
  | measure => exact absurd rfl ha
  | _ => rfl

/-- The labels to measure are those of the measured qubits. -/
theorem labels_of_part {op : Operation} {part : Part} (hpart : operationPart t op = .ok part) :
    List.Forall₂ (fun q l => t.labelOf? q = some l) op.measured part.labels := by
  cases op with
  | act a rs =>
    rcases ((t.actionPart_eq_ok_iff a rs part).mp hpart).labels with ⟨rfl, hl⟩ | ⟨ha, hl⟩
    · exact hl
    · rw [hl, Operation.measured_act ha]
      exact .nil
  | subcircuit c n rs =>
    obtain ⟨key, -, rfl⟩ := (operationPart_subcircuit_eq_ok_iff t c n rs part).mp hpart
    exact .nil

theorem labels_of_parts
    (hparts : List.Forall₂ (fun op part => operationPart t op = .ok part) ops parts) :
    List.Forall₂ (fun q l => t.labelOf? q = some l) (ops.flatMap Operation.measured)
      (parts.flatMap Part.labels) := by
  induction hparts with
  | nil => exact .nil
  | cons hpart _ ih =>
    rw [List.flatMap_cons, List.flatMap_cons]
    exact List.rel_append (labels_of_part hpart) ih

/-- No qubit is measured twice in a moment. -/
theorem nodup_measured (hops : ∀ op ∈ ops, op.WellFormed)
    (hapart : ops.Pairwise Operation.Apart) : (ops.flatMap Operation.measured).Nodup := by
  rw [List.nodup_flatMap]
  constructor
  · intro op hop
    cases op with
    | act a rs =>
      by_cases ha : a = .measure
      · subst ha
        cases hops _ hop with
        | act htakes => exact htakes.2
      · rw [Operation.measured_act ha]
        exact List.nodup_nil
    | subcircuit c n rs => exact List.nodup_nil
  · refine hapart.imp fun {x y} hxy => ?_
    intro q hx hy
    exact hxy (x.measured_subset hx) (y.measured_subset hy)

/-- The measuring line of a moment is read as its measurements in one. -/
theorem Wiring.Follows.reads_measureLines (h : w.Follows t qs)
    (hqs : ∀ op ∈ ops, ∀ q ∈ op.qubits, q ∈ qs) (hops : ∀ op ∈ ops, op.WellFormed)
    (hapart : ops.Pairwise Operation.Apart)
    (hparts : List.Forall₂ (fun op part => operationPart t op = .ok part) ops parts) :
    ∃ ss, Spells (measureLines parts) ss ∧ List.Forall₂ w.Reads ss (t.merged ops) := by
  have hlabels := labels_of_parts hparts
  have htexts := Target.eq_map_labelText hlabels
  have hperm := t.byLabel_perm (ops.flatMap Operation.measured)
  have hnodup := hperm.nodup_iff.mpr (nodup_measured hops hapart)
  have hread : ∀ q ∈ t.byLabel (ops.flatMap Operation.measured),
      w.qubitOf? (t.labelText q) = some q ∧ IsWord (t.labelText q) := by
    intro q hq
    have hmem := hperm.mem_iff.mp hq
    obtain ⟨op, hop, hq'⟩ := List.mem_flatMap.mp hmem
    obtain ⟨l, -, hl⟩ := forall₂_right_of_mem hlabels hmem
    rw [Target.labelText_eq hl]
    exact h.labels q (hqs op hop q (op.measured_subset hq')) l hl
  rw [measureLines, htexts, ← t.map_byLabel, Target.merged]
  generalize t.byLabel (ops.flatMap Operation.measured) = sorted at hnodup hread
  cases sorted with
  | nil => exact ⟨[], .nil, .nil⟩
  | cons q rest =>
    refine ⟨[.measure ((q :: rest).map t.labelText)], ?_, .cons ?_ .nil⟩
    · refine spells_measure (by simp) fun l hl => ?_
      obtain ⟨p, hp, rfl⟩ := List.mem_map.mp hl
      exact (hread p hp).2
    · refine Wiring.reads_measure (by simp) hnodup ?_
      rw [List.forall₂_map_left_iff, List.forall₂_same]
      exact fun p hp => (hread p hp).1

end Moment

/-- The operations of a moment as its lines are read: its entries in some order, each in
the form of its instruction, and all its measurements in one. -/
def Target.Shows (t : Target) (ops outer : List Operation) : Prop :=
  ∃ kept rs, kept.Perm (ops.filter t.isEntry) ∧ List.Forall₂ Operation.Echoes kept rs ∧
    outer = rs ++ t.merged ops

/-- The lines of a moment itself, without those of nested circuits. -/
theorem Wiring.Follows.reads_momentLines {w : Wiring} {t : Target} {qs : List Qubit}
    {ops : List Operation} {parts : List Part} (h : w.Follows t qs)
    (hqs : ∀ op ∈ ops, ∀ q ∈ op.qubits, q ∈ qs) (hops : ∀ op ∈ ops, op.WellFormed)
    (hapart : ops.Pairwise Operation.Apart)
    (hparts : List.Forall₂ (fun op part => operationPart t op = .ok part) ops parts) :
    ∃ outer ss, t.Shows ops outer ∧ Spells (entryLines parts ++ measureLines parts) ss ∧
      List.Forall₂ w.Reads ss outer := by
  obtain ⟨kept, rs, ss, hperm, hechoes, hspells, hreads⟩ := h.reads_entryLines hqs hops hparts
  obtain ⟨us, hspells', hreads'⟩ := h.reads_measureLines hqs hops hapart hparts
  exact ⟨rs ++ t.merged ops, ss ++ us, ⟨kept, rs, hperm, hechoes, rfl⟩, hspells.append hspells',
    List.rel_append hreads hreads'⟩

namespace Target.Shows

variable {t : Target} {ops outer : List Operation}

theorem mem_merged {r : Operation} (hr : r ∈ t.merged ops) :
    r = .act .measure (t.byLabel (ops.flatMap Operation.measured)) := by
  unfold Target.merged at hr
  split at hr
  · exact absurd hr (by simp)
  · exact List.mem_singleton.mp hr

/-- What is shown is an entry of the moment or its one measurement. -/
theorem mem_cases (h : t.Shows ops outer) {r : Operation} (hr : r ∈ outer) :
    (∃ op ∈ ops, t.isEntry op = true ∧ op.Echoes r) ∨
      r = .act .measure (t.byLabel (ops.flatMap Operation.measured)) := by
  obtain ⟨kept, rs, hperm, hechoes, rfl⟩ := h
  rcases List.mem_append.mp hr with hr | hr
  · obtain ⟨op, hop, hecho⟩ := forall₂_left_of_mem hechoes hr
    have hmem := List.mem_filter.mp (hperm.mem_iff.mp hop)
    exact .inl ⟨op, hmem.1, hmem.2, hecho⟩
  · exact .inr (mem_merged hr)

/-- What is shown acts where an action of the moment does. -/
theorem mem_qubits (h : t.Shows ops outer) {r : Operation} (hr : r ∈ outer) {q : Qubit}
    (hq : q ∈ r.qubits) : ∃ a qs, .act a qs ∈ ops ∧ q ∈ qs := by
  rcases h.mem_cases hr with ⟨op, hop, -, hecho⟩ | rfl
  · have hq' := (hecho.mem_qubits q).mp hq
    cases hecho with
    | same a qs => exact ⟨a, qs, hop, hq'⟩
    | exchanged p r => exact ⟨_, _, hop, hq'⟩
  · have hq' := (t.byLabel_perm _).mem_iff.mp hq
    obtain ⟨op, hop, hmeasured⟩ := List.mem_flatMap.mp hq'
    cases op with
    | act a qs => exact ⟨a, qs, hop, (Operation.act a qs).measured_subset hmeasured⟩
    | subcircuit c n qs => exact absurd hmeasured (by simp [Operation.measured])

theorem isEntry_eq_false_of_measured {op : Operation} {q : Qubit} (h : q ∈ op.measured) :
    t.isEntry op = false := by
  cases op with
  | act a qs =>
    by_cases ha : a = .measure
    · subst ha
      rfl
    · rw [Operation.measured_act ha] at h
      exact absurd h (by simp)
  | subcircuit c n qs => rfl

/-- What is shown of operations apart is apart. -/
theorem apart (h : t.Shows ops outer) (hapart : ops.Pairwise Operation.Apart) :
    outer.Pairwise Operation.Apart := by
  obtain ⟨kept, rs, hperm, hechoes, rfl⟩ := h
  have hkept : kept.Pairwise Operation.Apart :=
    (hperm.pairwise_iff fun h => h.symm).mpr (hapart.filter _)
  refine List.pairwise_append.mpr ⟨Operation.pairwise_apart (hechoes.imp fun _ _ h => h.mem_qubits) hkept, ?_, ?_⟩
  · unfold Target.merged
    split <;> simp
  · intro r hr m hm q hq hqm
    rw [mem_merged hm] at hqm
    obtain ⟨op, hop, hecho⟩ := forall₂_left_of_mem hechoes hr
    obtain ⟨op', hop', hmeasured⟩ := List.mem_flatMap.mp ((t.byLabel_perm _).mem_iff.mp hqm)
    have hentry := List.mem_filter.mp (hperm.mem_iff.mp hop)
    -- an entry is no measurement, so the two are different operations of the moment
    have hne : op ≠ op' := by
      rintro rfl
      rw [isEntry_eq_false_of_measured hmeasured] at hentry
      exact absurd hentry.2 (by simp)
    exact hapart.forall hentry.1 hop' hne ((hecho.mem_qubits q).mp hq)
      (op'.measured_subset hmeasured)

end Target.Shows

theorem Action.canonical_cases (a : Action) :
    a.canonical = a ∨ ∃ g, a.canonical = .gate (.standard g) := by
  unfold canonical
  split
  · split
    · exact .inr ⟨_, rfl⟩
    · exact .inl rfl
  · exact .inl rfl

/-- A sequence that is shown is a sequence of the moment. -/
theorem Target.Shows.mem_of_decoupling {t : Target} {ops outer : List Operation}
    (h : t.Shows ops outer) {d : Decoupling} {qs : List Qubit}
    (hd : .act (.decoupling d) qs ∈ outer) : .act (.decoupling d) qs ∈ ops := by
  rcases h.mem_cases hd with ⟨op, hop, -, hecho⟩ | he
  · generalize hr : Operation.act (.decoupling d) qs = r at hecho
    cases hecho with
    | same a rs =>
      obtain ⟨hcanonical, rfl⟩ : Action.decoupling d = a.canonical ∧ qs = rs := by simpa using hr
      rcases a.canonical_cases with ha | ⟨g, hg⟩
      · rwa [ha]
      · exact absurd (hcanonical.trans hg) (by simp)
    | exchanged p q => exact absurd hr (by simp)
  · exact absurd he (by simp)

/-- What is shown reads back if the moment does. -/
theorem Target.Shows.readsBack {t : Target} {ops outer : List Operation} (h : t.Shows ops outer)
    (hread : ∀ op ∈ ops, op.readsBack = true) {r : Operation} (hr : r ∈ outer) :
    r.readsBack = true := by
  unfold Operation.readsBack
  split
  · exact hread _ (h.mem_of_decoupling hr)
  · rfl

theorem nested?_of_act {t : Target} {a : Action} {qs : List Qubit} {part : Part}
    (h : operationPart t (.act a qs) = .ok part) : part.nested? = none := by
  have hgives := (t.actionPart_eq_ok_iff a qs part).mp h
  cases hgives <;> rfl

/-- The lines of a moment without nested circuits end with its barrier. -/
theorem partsLines_of_flat {t : Target} {ops : List Operation} {parts : List Part}
    (hflat : ∀ op ∈ ops, ∃ a rs, op = .act a rs)
    (hparts : List.Forall₂ (fun op part => operationPart t op = .ok part) ops parts) :
    t.partsLines parts = .ok (entryLines parts ++ measureLines parts ++ [t.barrier]) := by
  have hnested : parts.filterMap Part.nested? = [] := by
    rw [List.filterMap_eq_nil_iff]
    intro part hpart
    obtain ⟨op, hop, hp⟩ := forall₂_left_of_mem hparts hpart
    obtain ⟨a, rs, rfl⟩ := hflat op hop
    exact nested?_of_act hp
  have hlines : nestedLines parts = .ok [] := by
    simp [nestedLines, hnested, sortByKey, bind, Except.bind, pure, Except.pure]
  refine (partsLines_eq_ok_iff t parts _).mpr ⟨[], hlines, ?_⟩
  rw [if_pos rfl, List.append_nil]

/-- The lines of moments without nested circuits: what each moment shows, and a barrier. -/
theorem Wiring.Follows.plays_flat {w : Wiring} {t : Target} {qs : List Qubit}
    {ms : List Moment} {lines : List String} (h : w.Follows t qs)
    (hqs : ∀ m ∈ ms, ∀ op ∈ m.operations, ∀ q ∈ op.qubits, q ∈ qs)
    (hms : ∀ m ∈ ms, m.WellFormed)
    (hflat : ∀ m ∈ ms, ∀ op ∈ m.operations, ∃ a rs, op = .act a rs)
    (hlines : momentsLines t ms = .ok lines) :
    ∃ outers, Plays t w lines outers ∧
      List.Forall₂ (fun m outer => t.Shows m.operations outer) ms outers := by
  induction ms generalizing lines with
  | nil =>
    obtain rfl : [] = lines := by simpa [momentsLines] using hlines
    exact ⟨[], .nil, .nil⟩
  | cons m ms ih =>
    obtain ⟨parts, hparts, front, hfront, rest, hrest, rfl⟩ :=
      (momentsLines_cons_eq_ok_iff t m ms lines).mp hlines
    obtain ⟨outers, hplays, hshows⟩ := ih (fun k hk => hqs k (by simp [hk]))
      (fun k hk => hms k (by simp [hk])) (fun k hk => hflat k (by simp [hk])) hrest
    obtain ⟨outer, ss, hshow, hspells, hreads⟩ := h.reads_momentLines (hqs m (by simp))
      (hms m (by simp)).each (hms m (by simp)).apart hparts
    obtain rfl : entryLines parts ++ measureLines parts ++ [t.barrier] = front :=
      Except.ok.inj ((partsLines_of_flat (hflat m (by simp)) hparts).symm.trans hfront)
    refine ⟨outer :: outers, ?_, .cons hshow hshows⟩
    rw [List.append_assoc, List.singleton_append]
    exact .cons hspells hreads hplays

end PulseScript
