import Mathlib
import PulseScript.Proofs.MomentShape
import PulseScript.Proofs.Recompile
import PulseScript.Proofs.Segments

/-!
# Renamed qubits

A qubit is only a name. The numbers of qubits put the operands of nested circuits in order, and
moments are searched for them, but no text depends on that: a nested circuit is sorted by its
smallest label, and the labels of a set of qubits do not depend on the order of the set. So a
circuit on other qubits has the script that it has under the labels of those, and a script that is
read with other qubits gives the circuit on those.
-/
namespace PulseScript

mutual
/-- The operation on other qubits. Nested circuits are built anew, on their qubits in increasing
order. -/
def Operation.rename (f : Qubit → Qubit) : Operation → Operation
  | .act a qs => .act a (qs.map f)
  | .subcircuit ⟨ms⟩ n _ => .ofCircuit ⟨renamedMoments f ms⟩ n

def renamedOperations (f : Qubit → Qubit) : List Operation → List Operation
  | [] => []
  | op :: ops => op.rename f :: renamedOperations f ops

def renamedMoments (f : Qubit → Qubit) : List Moment → List Moment
  | [] => []
  | ⟨ops⟩ :: ms => ⟨renamedOperations f ops⟩ :: renamedMoments f ms
end

def Moment.rename (f : Qubit → Qubit) (m : Moment) : Moment := ⟨renamedOperations f m.operations⟩

def Circuit.rename (f : Qubit → Qubit) (c : Circuit) : Circuit := ⟨renamedMoments f c.moments⟩

variable {f : Qubit → Qubit}

@[simp] theorem Operation.rename_act (a : Action) (qs : List Qubit) :
    (Operation.act a qs).rename f = .act a (qs.map f) := by
  rw [Operation.rename]

@[simp] theorem Operation.rename_subcircuit (c : Circuit) (n : UInt32) (qs : List Qubit) :
    (Operation.subcircuit c n qs).rename f = .ofCircuit (c.rename f) n := by
  obtain ⟨ms⟩ := c
  rw [Operation.rename, Circuit.rename]

@[simp] theorem Moment.operations_rename (m : Moment) :
    (m.rename f).operations = m.operations.map (Operation.rename f) := by
  rw [Moment.rename]
  induction m.operations with
  | nil => rfl
  | cons op ops ih => rw [renamedOperations, List.map_cons, ← ih]

@[simp] theorem Circuit.moments_rename (c : Circuit) :
    (c.rename f).moments = c.moments.map (Moment.rename f) := by
  rw [Circuit.rename]
  induction c.moments with
  | nil => rfl
  | cons m ms ih =>
    obtain ⟨ops⟩ := m
    rw [renamedMoments, List.map_cons, Moment.rename, ← ih]

theorem Moment.rename_mk (ops : List Operation) :
    (Moment.mk ops).rename f = ⟨ops.map (Operation.rename f)⟩ :=
  congrArg Moment.mk (Moment.operations_rename _)

theorem Circuit.rename_mk (ms : List Moment) :
    (Circuit.mk ms).rename f = ⟨ms.map (Moment.rename f)⟩ :=
  congrArg Circuit.mk (Circuit.moments_rename _)

/-- The qubits of a renamed circuit are those of the circuit, renamed, if this is so for its
operations. -/
theorem Circuit.mem_qubits_rename_of {c : Circuit}
    (hops : ∀ m ∈ c.moments, ∀ op ∈ m.operations, ∀ q,
      q ∈ (op.rename f).qubits ↔ ∃ p ∈ op.qubits, f p = q) (q : Qubit) :
    q ∈ (c.rename f).qubits ↔ ∃ p ∈ c.qubits, f p = q := by
  simp only [Circuit.mem_qubits, moments_rename, List.mem_map, exists_exists_and_eq_and,
    Moment.operations_rename]
  constructor
  · rintro ⟨m, hm, op, hop, hq⟩
    obtain ⟨p, hp, rfl⟩ := (hops m hm op hop q).mp hq
    exact ⟨p, ⟨m, hm, op, hop, hp⟩, rfl⟩
  · rintro ⟨p, ⟨m, hm, op, hop, hp⟩, rfl⟩
    exact ⟨m, hm, op, hop, (hops m hm op hop _).mpr ⟨p, hp, rfl⟩⟩

theorem Operation.mem_qubits_rename {op : Operation} (hop : op.WellFormed) (q : Qubit) :
    q ∈ (op.rename f).qubits ↔ ∃ p ∈ op.qubits, f p = q := by
  induction op generalizing q with
  | act a qs => simp [Operation.qubits]
  | subcircuit c n qs ih =>
    obtain ⟨rfl, hc⟩ := hop.nested
    rw [rename_subcircuit]
    exact Circuit.mem_qubits_rename_of (fun m hm op hop => ih m hm op hop ((hc m hm).each op hop)) q

theorem Circuit.mem_qubits_rename {c : Circuit} (hc : c.WellFormed) (q : Qubit) :
    q ∈ (c.rename f).qubits ↔ ∃ p ∈ c.qubits, f p = q :=
  mem_qubits_rename_of (fun m hm _ hop => Operation.mem_qubits_rename ((hc m hm).each _ hop)) q

/-- An action that can be built on the other qubits is a renamed operation. -/
theorem Operation.wellFormed_and_built_rename {a : Action} {qs : List Qubit} (ht : a.Takes qs)
    (h : (act a (qs.map f)).Built) : (act a qs).WellFormed ∧ ((act a qs).rename f).Built :=
  ⟨.act ht, rename_act (f := f) a qs ▸ h⟩

section Injective

variable (hf : f.Injective)

include hf

/-- Operations that are apart stay apart, and others do not become so. -/
theorem Operation.apart_rename_iff {x y : Operation} (hx : x.WellFormed) (hy : y.WellFormed) :
    (x.rename f).Apart (y.rename f) ↔ x.Apart y := by
  constructor
  · intro h q hxq hyq
    exact h ((mem_qubits_rename hx _).mpr ⟨q, hxq, rfl⟩) ((mem_qubits_rename hy _).mpr ⟨q, hyq, rfl⟩)
  · intro h q hxq hyq
    obtain ⟨p, hp, rfl⟩ := (mem_qubits_rename hx q).mp hxq
    obtain ⟨r, hr, hrp⟩ := (mem_qubits_rename hy (f p)).mp hyq
    exact h hp (hf hrp ▸ hr)

theorem Moment.push_rename {m m' : Moment} {op : Operation} (hm : m.WellFormed)
    (hop : op.WellFormed) (h : m.push op = .ok m') :
    (m.rename f).push (op.rename f) = .ok (m'.rename f) := by
  obtain ⟨hapart, rfl⟩ := (push_eq_ok_iff m m' op).mp h
  refine (push_eq_ok_iff _ _ _).mpr ⟨?_, by simp [rename_mk]⟩
  simp only [operations_rename, List.forall_mem_map]
  exact fun x hx => (Operation.apart_rename_iff hf (hm.each x hx) hop).mpr (hapart x hx)

theorem Action.takes_map_iff (a : Action) (qs : List Qubit) : a.Takes (qs.map f) ↔ a.Takes qs := by
  cases a <;> simp [Takes, List.nodup_map_iff hf, List.map_eq_singleton_iff]

/-- What the constructors make can be made on other qubits too. -/
theorem Moment.Built.rename {m : Moment} (h : m.Built) : (m.rename f).Built := by
  have htakes := fun {a : Action} {qs : List Qubit} => (Action.takes_map_iff hf a qs).mpr
  refine @Moment.Built.rec (fun op _ => op.WellFormed ∧ (op.rename f).Built)
    (fun m _ => m.WellFormed ∧ (m.rename f).Built)
    ?gate ?measure ?delay ?noise ?marker ?decoupling ?circuit ?empty ?push m h |>.2
  case gate =>
    intro g qs op h
    obtain ⟨ht, rfl⟩ := (Operation.ofGate_eq_ok_iff g qs op).mp h
    exact Operation.wellFormed_and_built_rename ht
      (.gate ((Operation.ofGate_eq_ok_iff _ _ _).mpr ⟨htakes ht, rfl⟩))
  case measure =>
    intro qs op h
    obtain ⟨ht, rfl⟩ := (Operation.ofMeasure_eq_ok_iff qs op).mp h
    exact Operation.wellFormed_and_built_rename ht
      (.measure ((Operation.ofMeasure_eq_ok_iff _ _).mpr ⟨htakes ht, rfl⟩))
  case delay =>
    exact fun q ns => Operation.wellFormed_and_built_rename ⟨q, rfl⟩ (.delay (f q) ns)
  case noise =>
    intro channel qs op h
    obtain ⟨ht, rfl⟩ := (Operation.ofNoise_eq_ok_iff channel qs op).mp h
    exact Operation.wellFormed_and_built_rename ht
      (.noise ((Operation.ofNoise_eq_ok_iff _ _ _).mpr ⟨htakes ht, rfl⟩))
  case marker =>
    exact fun a qs => Operation.wellFormed_and_built_rename trivial (.marker a (qs.map f))
  case decoupling =>
    exact fun d q => Operation.wellFormed_and_built_rename ⟨q, rfl⟩ (.decoupling d (f q))
  case circuit =>
    intro c n _ ih
    refine ⟨Operation.wellFormed_ofCircuit (fun m hm => (ih m hm).1) n, ?_⟩
    rw [Operation.ofCircuit, Operation.rename_subcircuit]
    refine .circuit _ n ?_
    simpa using fun m hm => (ih m hm).2
  case empty => exact ⟨.empty, .empty⟩
  case push =>
    exact fun _ _ hp ihm ihop => ⟨ihm.1.push ihop.1 hp, .push ihm.2 ihop.2
      (Moment.push_rename hf ihm.1 ihop.1 hp)⟩

theorem Circuit.Built.rename {c : Circuit} (h : c.Built) : (c.rename f).Built := by
  rw [Circuit.Built, moments_rename, List.forall_mem_map]
  exact fun m hm => (h m hm).rename hf

end Injective

namespace Target

variable {t : Target}

/-- The target under which a qubit has the label of another qubit. -/
def comap (t : Target) (f : Qubit → Qubit) : Target := { t with labelOf? := t.labelOf? ∘ f }

theorem forall₂_labelOf?_map_iff (qs : List Qubit) (ls : List String) :
    List.Forall₂ (fun q l => t.labelOf? q = some l) (qs.map f) ls ↔
      List.Forall₂ (fun q l => (t.comap f).labelOf? q = some l) qs ls :=
  List.forall₂_map_left_iff

/-- An action on other qubits gives what it gives under their labels. -/
theorem gives_map_iff (a : Action) (qs : List Qubit) (p : Part) :
    t.Gives a (qs.map f) p ↔ (t.comap f).Gives a qs p := by
  constructor
  · intro h
    generalize hqs : qs.map f = rs at h
    cases h with
    | ignored hi => exact .ignored hi
    | identity hi hr => exact .identity hi hr
    | measure hi hl =>
      subst hqs
      exact .measure hi ((forall₂_labelOf?_map_iff qs _).mp hl)
    | decoupling hi hl hd =>
      obtain ⟨q, rfl, rfl⟩ := List.map_eq_singleton_iff.mp hqs
      exact .decoupling hi hl hd
    | pulse hi hr hm hl =>
      obtain ⟨q, rfl, rfl⟩ := List.map_eq_singleton_iff.mp hqs
      exact .pulse hi hr hm hl
    | coupled hi hp hq hr hn =>
      obtain ⟨p, rest, rfl, rfl, hrest⟩ := List.map_eq_cons_iff.mp hqs
      obtain ⟨q, rfl, rfl⟩ := List.map_eq_singleton_iff.mp hrest
      exact .coupled hi hp hq hr hn
    | idle hi hl =>
      obtain ⟨q, rfl, rfl⟩ := List.map_eq_singleton_iff.mp hqs
      exact .idle hi hl
  · intro h
    cases h with
    | ignored hi => exact .ignored hi
    | identity hi hr => exact .identity hi hr
    | measure hi hl => exact .measure hi ((forall₂_labelOf?_map_iff qs _).mpr hl)
    | decoupling hi hl hd => exact .decoupling hi hl hd
    | pulse hi hr hm hl => exact .pulse hi hr hm hl
    | coupled hi hp hq hr hn => exact .coupled hi hp hq hr hn
    | idle hi hl => exact .idle hi hl

theorem foldl_minLabel_le (l : String) (ls : List String) : ∀ k ∈ l :: ls, ls.foldl minLabel l ≤ k := by
  induction ls generalizing l with
  | nil => simp
  | cons m ls ih =>
    obtain ⟨hmin, hrest⟩ := List.forall_mem_cons.mp (ih (minLabel l m))
    refine List.forall_mem_cons.mpr ⟨hmin.trans (minLabel_le_left l m), ?_⟩
    exact List.forall_mem_cons.mpr ⟨hmin.trans (minLabel_le_right l m), hrest⟩

/-- The smallest label of the qubits of a list depends only on which qubits are in it. -/
theorem smallestLabel_eq_ok_iff (qs : List Qubit) (key : String) :
    t.smallestLabel qs = .ok key ↔ (∀ q ∈ qs, t.Labels q) ∧
      ((∀ q, q ∉ qs) ∧ key = "" ∨ t.IsLeastLabel qs key) := by
  have hfound : ∀ k, t.smallestLabel qs = .ok k →
      ((∀ q, q ∉ qs) ∧ k = "") ∨ t.IsLeastLabel qs k := by
    intro k h
    rcases smallestLabel_eq_ok h with ⟨rfl, rfl⟩ | hmem
    · exact .inl ⟨by simp, rfl⟩
    refine .inr ⟨hmem, fun q hq l hl => ?_⟩
    simp only [smallestLabel, bind_eq_ok_iff, mapM_label_eq_ok_iff] at h
    obtain ⟨ls, hls, hkey⟩ := h
    obtain ⟨l', hl', hq'⟩ := forall₂_right_of_mem hls hq
    obtain rfl := Option.some.inj (hl.symm.trans hq')
    cases ls with
    | nil => exact absurd hl' (by simp)
    | cons l₀ ls =>
      obtain rfl : ls.foldl minLabel l₀ = k := by simpa [pure_eq_ok_iff] using hkey
      exact foldl_minLabel_le l₀ ls l hl'
  constructor
  · exact fun h => ⟨(t.smallestLabel_isOk_iff qs).mp ⟨key, h⟩, hfound key h⟩
  · rintro ⟨hlabels, hkey⟩
    obtain ⟨k, hk⟩ := (t.smallestLabel_isOk_iff qs).mpr hlabels
    suffices hsame : key = k by rw [hsame, hk]
    rcases hkey with ⟨hnone, rfl⟩ | hleast <;> rcases hfound k hk with ⟨hnone', rfl⟩ | hleast'
    · rfl
    · obtain ⟨q, hq, -⟩ := hleast'.mem
      exact absurd hq (hnone q)
    · obtain ⟨q, hq, -⟩ := hleast.mem
      exact absurd hq (hnone' q)
    · obtain ⟨p, hp, hpl⟩ := hleast.mem
      obtain ⟨q, hq, hql⟩ := hleast'.mem
      exact String.le_antisymm (hleast.le q hq k hql) (hleast'.le p hp key hpl)

theorem smallestLabel_rename {qs rs : List Qubit} (h : ∀ q, q ∈ rs ↔ ∃ p ∈ qs, f p = q)
    (key : String) : t.smallestLabel rs = .ok key ↔ (t.comap f).smallestLabel qs = .ok key := by
  have hall : ∀ P : Qubit → Prop, (∀ q ∈ rs, P q) ↔ ∀ p ∈ qs, P (f p) := by
    intro P
    simp only [h, forall_exists_index, and_imp, forall_apply_eq_imp_iff₂]
  have hleast : t.IsLeastLabel rs key ↔ (t.comap f).IsLeastLabel qs key := by
    constructor
    · rintro ⟨⟨q, hq, hl⟩, hle⟩
      obtain ⟨p, hp, rfl⟩ := (h q).mp hq
      exact ⟨⟨p, hp, hl⟩, (hall _).mp hle⟩
    · rintro ⟨⟨p, hp, hl⟩, hle⟩
      exact ⟨⟨f p, (h _).mpr ⟨p, hp, rfl⟩, hl⟩, (hall _).mpr hle⟩
  have hlabels := hall t.Labels
  have hempty := hall fun _ => False
  simp only [smallestLabel_eq_ok_iff, hleast]
  exact and_congr hlabels (or_congr_left (and_congr_left fun _ => hempty))

/-- Moments on other qubits have the lines that they have under the labels of those, if their
operations add the same. -/
theorem momentsLines_rename {ms : List Moment}
    (hops : ∀ m ∈ ms, ∀ op ∈ m.operations, t.settled? (op.rename f) = (t.comap f).settled? op)
    (lines : List String) :
    momentsLines t (ms.map (Moment.rename f)) = .ok lines ↔
      momentsLines (t.comap f) ms = .ok lines := by
  induction ms generalizing lines with
  | nil => rfl
  | cons m ms ih =>
    obtain ⟨hfirst, hops⟩ := List.forall_mem_cons.mp hops
    have hmoment : ∀ front, t.Lays (m.rename f).operations front ↔
        (t.comap f).Lays m.operations front := by
      intro front
      rw [Moment.operations_rename]
      refine exists_congr fun parts => and_congr ?_ Iff.rfl
      rw [List.forall₂_map_left_iff]
      constructor
      · exact fun h => forall₂_imp_of_mem h fun op hop p hp => hfirst op hop ▸ hp
      · exact fun h => forall₂_imp_of_mem h fun op hop p hp => (hfirst op hop).symm ▸ hp
    rw [List.map_cons]
    simp only [momentsLines_cons_eq_ok_iff_lays, hmoment, ih hops]

theorem settled?_rename {op : Operation} (hop : op.WellFormed) :
    t.settled? (op.rename f) = (t.comap f).settled? op := by
  induction op with
  | act a qs =>
    refine Option.ext fun part => ?_
    rw [Operation.rename_act, settled?_act_eq_some_iff, settled?_act_eq_some_iff, gives_map_iff]
  | subcircuit c n qs ih =>
    obtain ⟨rfl, hc⟩ := hop.nested
    have hkey := smallestLabel_rename (t := t) (Circuit.mem_qubits_rename (f := f) hc)
    have hlines := momentsLines_rename fun m hm op hop => ih m hm op hop ((hc m hm).each op hop)
    refine Option.ext fun part => ?_
    rw [Operation.rename_subcircuit, Operation.ofCircuit, settled?_subcircuit_eq_some_iff,
      settled?_subcircuit_eq_some_iff]
    simp only [hkey, Circuit.moments_rename, hlines]

end Target

theorem operationNeedsCouplers_rename (p : IgnorePolicy) (op : Operation) :
    operationNeedsCouplers p (op.rename f) = operationNeedsCouplers p op := by
  induction op with
  | act a qs => rfl
  | subcircuit c n qs ih =>
    obtain ⟨ms⟩ := c
    rw [Operation.rename_subcircuit, Operation.ofCircuit, Circuit.rename_mk, operationNeedsCouplers,
      operationNeedsCouplers, Bool.eq_iff_iff, momentsNeedCouplers_iff, momentsNeedCouplers_iff]
    simp only [List.mem_map, exists_exists_and_eq_and, Moment.operations_rename]
    refine exists_congr fun m => and_congr_right fun hm => exists_congr fun op => ?_
    exact and_congr_right fun hop => by rw [ih m hm op hop]

theorem Circuit.needsCouplers_rename (p : IgnorePolicy) (c : Circuit) :
    (c.rename f).needsCouplers p = c.needsCouplers p := by
  -- the scan of a circuit is that of an operation that holds it
  have h := operationNeedsCouplers_rename (f := f) p (.subcircuit c 0 [])
  obtain ⟨ms⟩ := c
  rwa [Operation.rename_subcircuit, Operation.ofCircuit] at h

def Wiring.rename (f : Qubit → Qubit) (w : Wiring) : Wiring :=
  { w with qubitOf? := fun label => (w.qubitOf? label).map f }

def Assembly.rename (f : Qubit → Qubit) (s : Assembly) : Assembly :=
  ⟨s.closed.map (Moment.rename f), s.current.rename f⟩

section Reading

variable {w : Wiring}

theorem Wiring.forall₂_qubitOf?_rename_iff (ls : List String) (qs : List Qubit) :
    List.Forall₂ (fun l q => (w.rename f).qubitOf? l = some q) ls qs ↔
      ∃ ps, List.Forall₂ (fun l q => w.qubitOf? l = some q) ls ps ∧ ps.map f = qs := by
  simp only [← List.forall₂_eq_eq_eq, List.forall₂_map_left_iff, exists_forall₂_trans_iff]
  simp only [rename, Option.map_eq_some_iff]

/-- With other qubits a statement stands for the same operation on those. -/
theorem Wiring.denotes_rename_iff (hf : f.Injective) (s : Statement) (op : Operation) :
    (w.rename f).Denotes s op ↔ ∃ x, w.Denotes s x ∧ op = x.rename f := by
  have hqubit : ∀ l q, (w.rename f).qubitOf? l = some q ↔ ∃ p, w.qubitOf? l = some p ∧ f p = q :=
    fun l q => Option.map_eq_some_iff
  constructor
  · intro h
    cases h with
    | gate hg harity hq =>
      obtain ⟨p, hp, rfl⟩ := (hqubit _ _).mp hq
      exact ⟨_, .gate hg harity hp, by simp⟩
    | coupled hm hr hn hp hq hne =>
      obtain ⟨p, hp', rfl⟩ := (hqubit _ _).mp hp
      obtain ⟨q, hq', rfl⟩ := (hqubit _ _).mp hq
      exact ⟨_, .coupled hm hr hn hp' hq' (ne_of_apply_ne f hne), by simp [Operation.onCoupler]⟩
    | measure hqs hne hnodup =>
      obtain ⟨ps, hps, rfl⟩ := (forall₂_qubitOf?_rename_iff _ _).mp hqs
      exact ⟨_, .measure hps (by simpa using hne) hnodup.of_map, by simp⟩
    | idle hq ns =>
      obtain ⟨p, hp, rfl⟩ := (hqubit _ _).mp hq
      exact ⟨_, .idle hp ns, by simp [Operation.ofDelay]⟩
    | context hd hl hq =>
      obtain ⟨p, hp, rfl⟩ := (hqubit _ _).mp hq
      exact ⟨_, .context hd hl hp, by simp [Operation.ofDecoupling]⟩
  · rintro ⟨x, h, rfl⟩
    cases h with
    | gate hg harity hq => simpa using .gate hg harity ((hqubit _ _).mpr ⟨_, hq, rfl⟩)
    | coupled hm hr hn hp hq hne =>
      simpa [Operation.onCoupler] using Denotes.coupled (w := w.rename f) hm hr hn
        ((hqubit _ _).mpr ⟨_, hp, rfl⟩) ((hqubit _ _).mpr ⟨_, hq, rfl⟩) (hf.ne hne)
    | measure hqs hne hnodup =>
      have hmap := (forall₂_qubitOf?_rename_iff (f := f) _ _).mpr ⟨_, hqs, rfl⟩
      simpa using .measure hmap (by simpa using hne) (hnodup.map hf)
    | idle hq ns => simpa [Operation.ofDelay] using .idle ((hqubit _ _).mpr ⟨_, hq, rfl⟩) ns
    | context hd hl hq =>
      simpa [Operation.ofDecoupling] using .context hd hl ((hqubit _ _).mpr ⟨_, hq, rfl⟩)

/-- Each statement does the same with other qubits. -/
theorem Assembly.step_rename_iff (hf : f.Injective) {s : Assembly} (hs : s.Found w)
    (l : ProgramLine) (s' : Assembly) :
    Assembly.step (w.rename f) (s.rename f) l = .ok s' ↔
      ∃ u, Assembly.step w s l = .ok u ∧ s' = u.rename f := by
  cases hb : l.statement.isBarrier with
  | true =>
    simp only [step_of_isBarrier hb, Except.ok.injEq, exists_eq_left', @eq_comm _ s']
    rfl
  | false =>
    cases hop : l.statement.isOperation with
    | false =>
      simp only [step_of_not_isOperation hb hop, Except.ok.injEq, exists_eq_left', @eq_comm _ s']
    | true =>
      have hfree : ∀ x, w.Denotes l.statement x →
          ((∀ y ∈ (s.rename f).current.operations, y.Apart (x.rename f)) ↔
            ∀ y ∈ s.current.operations, y.Apart x) := by
        intro x hx
        have hwell := (Statement.finds (hx.operation?_eq 0)).wellFormed
        simp only [rename, Moment.operations_rename, List.forall_mem_map]
        exact forall₂_congr fun y hy =>
          Operation.apart_rename_iff hf (hs.current.wellFormed.each y hy) hwell
      have hjoin : ∀ x : Operation,
          (⟨(s.rename f).closed, ⟨(s.rename f).current.operations ++ [x.rename f]⟩⟩ : Assembly) =
            Assembly.rename f ⟨s.closed, ⟨s.current.operations ++ [x]⟩⟩ := by
        simp [rename, Moment.rename_mk]
      simp only [step_eq_ok_iff_of_isOperation hop, Wiring.denotes_rename_iff hf]
      constructor
      · rintro ⟨_, ⟨x, hx, rfl⟩, hapart, rfl⟩
        exact ⟨_, ⟨x, hx, (hfree x hx).mp hapart, rfl⟩, hjoin x⟩
      · rintro ⟨_, ⟨x, hx, hapart, rfl⟩, rfl⟩
        exact ⟨_, ⟨x, hx, rfl⟩, (hfree x hx).mpr hapart, (hjoin x).symm⟩

/-- Statement after statement does the same with other qubits. -/
theorem Assembly.foldlM_rename_iff (hf : f.Injective) {s : Assembly} (hs : s.Found w)
    (ls : List ProgramLine) (s' : Assembly) :
    ls.foldlM (Assembly.step (w.rename f)) (s.rename f) = .ok s' ↔
      ∃ u, ls.foldlM (Assembly.step w) s = .ok u ∧ s' = u.rename f := by
  induction ls generalizing s with
  | nil => simp only [List.foldlM_nil, pure_eq_ok_iff, exists_eq_left', @eq_comm _ s']
  | cons l ls ih =>
    simp only [List.foldlM_cons, bind_eq_ok_iff, step_rename_iff hf hs]
    constructor
    · rintro ⟨_, ⟨next, hnext, rfl⟩, h⟩
      obtain ⟨u, hu, rfl⟩ := (ih (hs.step hnext)).mp h
      exact ⟨u, ⟨next, hnext, hu⟩, rfl⟩
    · rintro ⟨u, ⟨next, hnext, hu⟩, rfl⟩
      exact ⟨_, ⟨next, hnext, rfl⟩, (ih (hs.step hnext)).mpr ⟨u, hu, rfl⟩⟩

theorem Assembly.finish_rename (s : Assembly) : (s.rename f).finish = s.finish.rename f := by
  obtain ⟨closed, current⟩ := s
  refine Circuit.eq_of_moments ?_
  rw [Circuit.moments_rename, finish_moments, finish_moments]
  by_cases h : current.operations = [] <;> simp [rename, h]

theorem Program.assemble_rename_iff (hf : f.Injective) (p : Program) (c : Circuit) :
    p.assemble (w.rename f) = .ok c ↔ ∃ d, p.assemble w = .ok d ∧ c = d.rename f := by
  have hstart : Assembly.start.Found w := ⟨by simp [Assembly.start], .empty⟩
  have hrun := Assembly.foldlM_rename_iff hf hstart p.lines
  simp only [assemble_eq_ok_iff_foldlM]
  constructor
  · rintro ⟨s, hs, rfl⟩
    obtain ⟨u, hu, rfl⟩ := (hrun s).mp hs
    exact ⟨_, ⟨u, hu, rfl⟩, u.finish_rename⟩
  · rintro ⟨_, ⟨u, hu, rfl⟩, rfl⟩
    exact ⟨_, (hrun _).mpr ⟨u, hu, rfl⟩, u.finish_rename⟩

end Reading

/-- Qubits are names only. A circuit on other qubits can be built like the circuit, it compiles
exactly if the circuit compiles under the labels of those, and to the same script. A script is read
with other qubits exactly if it is read without, and as the same circuit on those. -/
theorem Circuit.translate_rename {f : Qubit → Qubit} (hf : f.Injective) :
    (∀ (t : Target) (c : Circuit), c.Built → (c.rename f).Built ∧
      ((c.rename f).toScript t).toOption = (c.toScript (t.comap f)).toOption) ∧
    ∀ (w : Wiring) (filter : Option LineFilter) (source : String),
      (Circuit.ofScript (w.rename f) filter source).toOption =
        (Circuit.ofScript w filter source).toOption.map (rename f) := by
  constructor
  · intro t c hc
    have hlines := Target.momentsLines_rename (t := t) fun m hm op hop =>
      Target.settled?_rename (f := f) ((hc.wellFormed m hm).each op hop)
    refine ⟨hc.rename hf, Option.ext fun s => ?_⟩
    rw [toOption_eq_some_iff, toOption_eq_some_iff, toScript_eq_ok_iff, toScript_eq_ok_iff,
      needsCouplers_rename, moments_rename]
    simp only [hlines]
    rfl
  · intro w filter source
    refine Option.ext fun c => ?_
    simp only [Option.map_eq_some_iff, toOption_eq_some_iff, ofScript_eq_ok_iff,
      Program.assemble_rename_iff hf]
    constructor
    · rintro ⟨p, hp, hscan, d, hd, rfl⟩
      exact ⟨d, ⟨p, hp, hscan, hd⟩, rfl⟩
    · rintro ⟨d, ⟨p, hp, hscan, hd⟩, rfl⟩
      exact ⟨p, hp, hscan, d, hd, rfl⟩

def Qubit.exchanged : Qubit → Qubit := Equiv.swap ⟨0⟩ ⟨2⟩

theorem Qubit.injective_exchanged : exchanged.Injective := (Equiv.swap _ _).injective

theorem Circuit.translate_rename_exchanged :
    (besidePair.rename .exchanged).toScript (Target.joinedPair.comap .exchanged) =
      .ok "CZ G\nX q2\nB A\nX q2\nB A\n" ∧
    Circuit.ofScript (Wiring.joinedPair.rename .exchanged) none "CZ G\nB A\n" =
      .ok ⟨[⟨[.onCoupler [⟨2⟩, ⟨1⟩]]⟩]⟩ := by
  obtain ⟨hcompile, hread⟩ := translate_rename Qubit.injective_exchanged
  have hback : (Target.joinedPair.comap .exchanged).comap .exchanged = .joinedPair := by
    have hinv : Target.joinedPair.labelOf? ∘ (Qubit.exchanged ∘ Qubit.exchanged) =
        Target.joinedPair.labelOf? := by
      simp [Qubit.exchanged, Function.comp_def]
    exact congrArg (fun l => { Target.joinedPair with labelOf? := l }) hinv
  have htext : (besidePair.toScript .joinedPair).toOption =
      some "CZ G\nX q2\nB A\nX q2\nB A\n" := by cbv
  have hcircuit : (Circuit.ofScript .joinedPair none "CZ G\nB A\n").toOption =
      some ⟨[⟨[.onCoupler [⟨0⟩, ⟨1⟩]]⟩]⟩ := by cbv
  constructor
  · rw [← toOption_eq_some_iff, (hcompile _ _ built_besidePair).2, hback, htext]
  · rw [← toOption_eq_some_iff, hread, hcircuit]
    rfl

end PulseScript
