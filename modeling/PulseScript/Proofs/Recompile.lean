import Mathlib
import PulseScript.Proofs.RoundTrip
import PulseScript.Proofs.Statements

/-!
# What is read can be written again

Whatever text a circuit was read from, its operations have instructions or blocks, its
labels are known and its couplers too. So it compiles, and what is read from its script is
the circuit itself with the measurements of each moment in one.
-/
namespace PulseScript

inductive Wiring.Finds (w : Wiring) : Operation → Prop where
  | gate {m : Mnemonic} {g : StandardGate} {l : String} {q : Qubit} (hg : m.gate? = some g)
    (harity : g.arity = 1) (hq : w.qubitOf? l = some q) : Finds w (.act (.gate (.standard g)) [q])
  | coupled {r : CouplerRegistry} {name lp lq : String} {p q : Qubit} (hr : w.couplers = some r)
    (hn : r.pairFor? name = some (lp, lq)) (hp : w.qubitOf? lp = some p)
    (hq : w.qubitOf? lq = some q) (hne : p ≠ q) : Finds w (.onCoupler [p, q])
  | measure {ls : List String} {qs : List Qubit}
    (hqs : List.Forall₂ (fun l q => w.qubitOf? l = some q) ls qs) (hne : qs ≠ [])
    (hnodup : qs.Nodup) : Finds w (.act .measure qs)
  | delay {l : String} {q : Qubit} (hq : w.qubitOf? l = some q) (ns : UInt64) :
    Finds w (.ofDelay q ns)
  | decoupling {d : Decoupling} {l : String} {q : Qubit} (hd : d.validate = .ok ())
    (hq : w.qubitOf? l = some q) : Finds w (.ofDecoupling d q)

namespace Wiring.Finds

variable {w : Wiring} {op : Operation}

theorem wellFormed (h : w.Finds op) : op.WellFormed := by
  cases h with
  | gate hg harity hq => exact .act ⟨by simp [Gate.arity, harity], by simp⟩
  | coupled hr hn hp hq hne => exact .act ⟨rfl, by simpa using hne⟩
  | measure hqs hne hnodup => exact .act ⟨hne, hnodup⟩
  | delay hq ns => exact .act ⟨_, rfl⟩
  | decoupling hd hq => exact .act ⟨_, rfl⟩

/-- What is found comes back as it was. -/
theorem direct (h : w.Finds op) : op.Direct := by
  cases h with
  | gate hg harity hq => exact .gate hg (by simp)
  | coupled hr hn hp hq hne => exact .gate (m := .cz) rfl (by simp)
  | measure hqs hne hnodup => exact .measure hne
  | delay hq ns => exact .delay _ ns
  | decoupling hd hq => exact .decoupling hd _

/-- What is found is neither noise nor a marker. -/
theorem kept (h : w.Finds op) : IgnorePolicy.standard.ignores op = false := by
  cases h <;> rfl

/-- What is found can be written for the same labels and couplers. -/
theorem admits {t : Target} (h : w.Finds op)
    (hlabels : ∀ q l, w.qubitOf? l = some q → t.labelOf? q = some l)
    (hcouplers : w.couplers = t.couplers) : t.Admits op := by
  cases h with
  | gate hg harity hq =>
    refine .instruction (Mnemonic.resolve?_gate hg) ?_ fun _ p q hpq => absurd hpq (by simp)
    exact fun q hmem => ⟨_, hlabels q _ (List.mem_singleton.mp hmem ▸ hq)⟩
  | coupled hr hn hp hq hne =>
    rename_i p q
    have hlp := hlabels p _ hp
    have hlq := hlabels q _ hq
    refine .instruction (m := .cz) rfl (by simpa using ⟨⟨_, hlp⟩, ⟨_, hlq⟩⟩) ?_
    intro _ p' q' hpq
    obtain ⟨rfl, rfl⟩ : p = p' ∧ q = q' := by simpa using hpq
    exact ⟨_, _, _, hcouplers ▸ hr, hlp, hlq, _, .inl hn⟩
  | measure hqs hne hnodup =>
    refine .measure fun q hmem => ?_
    obtain ⟨l, -, hl⟩ := forall₂_left_of_mem hqs hmem
    exact ⟨l, hlabels q l hl⟩
  | delay hq ns =>
    refine .instruction (m := .idle) rfl ?_ fun h => absurd h (by decide)
    exact fun q hmem => ⟨_, hlabels q _ (List.mem_singleton.mp hmem ▸ hq)⟩
  | decoupling hd hq =>
    exact .decoupling hd fun q hmem => ⟨_, hlabels q _ (List.mem_singleton.mp hmem ▸ hq)⟩

/-- What is found on a coupler is found through a registry. -/
theorem couplers (h : w.Finds op) {qs : List Qubit} (hop : op = .onCoupler qs) :
    ∃ r, w.couplers = some r := by
  cases h with
  | gate hg harity hq =>
    obtain ⟨rfl, -⟩ : _ = StandardGate.cz ∧ _ = qs := by simpa [Operation.onCoupler] using hop
    exact absurd harity (by decide)
  | coupled hr hn hp hq hne => exact ⟨_, hr⟩
  | _ => exact absurd hop (by simp [Operation.onCoupler, Operation.ofDelay, Operation.ofDecoupling])

end Wiring.Finds

/-- What is read from a statement is among the operations that can be found. -/
theorem Statement.finds {w : Wiring} {line : Nat} {s : Statement} {op : Operation}
    (h : s.operation? w line = .ok (some op)) : w.Finds op := by
  cases (operation?_eq_some_iff line op).mp h with
  | gate hg harity hq => exact .gate hg harity hq
  | coupled hm hr hn hp hq hne => exact .coupled hr hn hp hq hne
  | measure hqs hne hnodup => exact .measure hqs hne hnodup
  | idle hq ns => exact .delay hq ns
  | context hd hl hq => exact .decoupling (ContextBlock.valid_of_sequence hd) hq

structure Moment.Found (w : Wiring) (m : Moment) : Prop where
  wellFormed : m.WellFormed
  found : ∀ op ∈ m.operations, w.Finds op

structure Assembly.Found (w : Wiring) (s : Assembly) : Prop where
  closed : ∀ m ∈ s.closed, m.Found w
  current : s.current.Found w

section Assembly

variable {w : Wiring}

theorem Moment.Found.empty : Moment.empty.Found w :=
  ⟨.empty, by simp [Moment.empty]⟩

theorem Assembly.Found.close {s : Assembly} (h : s.Found w) : s.close.Found w := by
  refine ⟨fun m hm => ?_, .empty⟩
  rcases List.mem_cons.mp hm with rfl | hm
  · exact h.current
  · exact h.closed m hm

/-- Each statement keeps what is known of the moments. -/
theorem Assembly.Found.step {s s' : Assembly} {l : ProgramLine} (h : s.Found w)
    (hs : Assembly.step w s l = .ok s') : s'.Found w := by
  unfold Assembly.step at hs
  split at hs
  · obtain rfl : s.close = s' := by simpa using hs
    exact h.close
  · obtain ⟨found, hfound, hs⟩ := (bind_eq_ok_iff _ _ _).mp hs
    cases found with
    | none =>
      obtain rfl : s = s' := by simpa [pure_eq_ok_iff] using hs
      exact h
    | some op =>
      simp only [bind_eq_ok_iff, pure_eq_ok_iff, liftBuild_eq_ok_iff] at hs
      obtain ⟨m, hm, rfl⟩ := hs
      refine ⟨h.closed, h.current.wellFormed.push (Statement.finds hfound).wellFormed hm, ?_⟩
      obtain ⟨-, rfl⟩ := (Moment.push_eq_ok_iff _ _ _).mp hm
      intro x hx
      rcases List.mem_append.mp hx with hx | hx
      · exact h.current.found x hx
      · rw [List.mem_singleton.mp hx]
        exact Statement.finds hfound

/-- Statement after statement keeps what is known of the moments. -/
theorem Assembly.Found.foldlM {ls : List ProgramLine} {s s' : Assembly} (h : s.Found w)
    (hs : ls.foldlM (Assembly.step w) s = .ok s') : s'.Found w :=
  foldlM_keeps (fun _ _ _ _ hfound hstep => Assembly.Found.step hfound hstep) h hs

theorem Assembly.Found.finish {s : Assembly} (h : s.Found w) :
    ∀ m ∈ s.finish.moments, m.Found w := by
  intro m hm
  unfold Assembly.finish at hm
  split at hm
  · exact h.closed m (by simpa using hm)
  · exact h.close.closed m (by simpa using hm)

/-- Every circuit that is read, from whatever text, has moments of what can be found. -/
theorem Circuit.found_of_ofScript {filter : Option LineFilter} {source : String} {c : Circuit}
    (h : Circuit.ofScript w filter source = .ok c) : ∀ m ∈ c.moments, m.Found w := by
  obtain ⟨p, -, -, h⟩ := (ofScript_eq_ok_iff w filter source c).mp h
  obtain ⟨s, hs, rfl⟩ := (Program.assemble_eq_ok_iff_foldlM c).mp h
  have hstart : Assembly.start.Found w := ⟨by simp [Assembly.start], .empty⟩
  exact (hstart.foldlM hs).finish

end Assembly

/-- The circuit with all measurements of each moment in one, in the order of the labels. -/
def Target.mergeMeasures (t : Target) (c : Circuit) : Circuit :=
  ⟨c.moments.map fun m =>
    ⟨m.operations.filter (fun op => decide (op.measured = [])) ++ t.merged m.operations⟩⟩

/-- A circuit that was read compiles for the same labels and couplers. -/
theorem Circuit.exists_toScript_of_found {t : Target} {w : Wiring} {c : Circuit}
    (hc : ∀ m ∈ c.moments, m.Found w)
    (hlabels : ∀ q l, w.qubitOf? l = some q → t.labelOf? q = some l)
    (hcouplers : w.couplers = t.couplers)
    (hreachable : ∀ r, t.couplers = some r → r.Reachable) (hagents : t.agents ≠ []) :
    ∃ s, c.toScript t = .ok s := by
  have hlines : ∃ lines, momentsLines t c.moments = .ok lines := by
    rw [momentsLines_isOk_iff]
    intro m hm op hop
    have hfinds := (hc m hm).found op hop
    exact (Target.compiles_iff (fun r hr => (hreachable r hr).indexed) hfinds.wellFormed).mpr
      fun _ => hfinds.admits hlabels hcouplers
  have hneeds : t.couplers.isSome ∨ c.needsCouplers t.policy = false := by
    rw [needsCouplers_eq_false_iff, or_iff_not_imp_left]
    intro hnone qs hholds
    obtain ⟨m, hm, op, hop, he⟩ := (c.holds_iff _).mp hholds
    have hfinds := (hc m hm).found op hop
    rcases he with he | ⟨e, n, rs, rfl, -⟩
    · obtain ⟨r, hr⟩ := hfinds.couplers he
      exact absurd (by simp [← hcouplers, hr]) hnone
    · exact absurd hfinds.direct.exists_act (by simp)
  obtain ⟨lines, hlines⟩ := hlines
  exact ⟨_, (toScript_eq_ok_iff t c _).mpr ⟨hagents, hneeds, lines, hlines, rfl⟩⟩

/-- Whatever was read compiles again, and what is then read is the circuit with the
measurements of each moment in one. Labels and qubits stand for each other, both sides know
the same couplers, names can stand in a line, no rules are given, and the durations of the
circuit's decoupling sequences read back as they were. -/
theorem Circuit.ofScript_toScript_ofScript (t : Target) (w : Wiring) (filter : Option LineFilter)
    (source : String) (c : Circuit)
    (hinverse : ∀ q l, t.labelOf? q = some l ↔ w.qubitOf? l = some q)
    (hlabels : ∀ q l, t.labelOf? q = some l → IsWord l) (hcouplers : w.couplers = t.couplers)
    (hreachable : ∀ r, t.couplers = some r → r.Reachable)
    (hnames : ∀ r, t.couplers = some r → ∀ name pair, r.pairFor? name = some pair → IsWord name)
    (hagents : t.agents ≠ []) (hwords : ∀ a ∈ t.agents, IsWord a) (hpolicy : t.policy = .standard)
    (hread : ∀ m ∈ c.moments, ∀ op ∈ m.operations, op.readsBack = true)
    (hc : Circuit.ofScript w filter source = .ok c) :
    ∃ s d, c.toScript t = .ok s ∧ Circuit.ofScript w none s = .ok d ∧
      (d == t.mergeMeasures c) = true := by
  have hfound := found_of_ofScript hc
  obtain ⟨s, hs⟩ := exists_toScript_of_found hfound (fun q l => (hinverse q l).mpr) hcouplers
    hreachable hagents
  have hw : w.Understands t c.qubits :=
    ⟨⟨fun q _ l hl => ⟨(hinverse q l).mp hl, hlabels q l hl⟩, hcouplers, hreachable, hnames⟩, hwords⟩
  have hmerged : List.Forall₂ (fun m n : Moment =>
      n.operations.Perm (m.operations.filter t.isEntry ++ t.merged m.operations))
      c.moments (t.mergeMeasures c).moments := by
    rw [Target.mergeMeasures, List.forall₂_map_right_iff, List.forall₂_same]
    intro m hm
    have hentries : m.operations.filter (fun op => decide (op.measured = [])) =
        m.operations.filter t.isEntry := by
      refine List.filter_congr fun op hop => ?_
      have hfinds := (hfound m hm).found op hop
      rw [Bool.eq_iff_iff, decide_eq_true_iff]
      exact (hfinds.direct.isEntry_iff (hpolicy ▸ hfinds.kept)).symm
    rw [hentries]
  obtain ⟨d, hd, heq⟩ := exists_ofScript_beq (fun m hm => (hfound m hm).wellFormed)
    (fun m hm op hop => ((hfound m hm).found op hop).direct) hw hread hmerged hs
  exact ⟨s, d, hs, hd, heq⟩

def Target.closedPair : Target :=
  { Target.joinedPair with labelOf? := fun q => if q ∈ [⟨0⟩, ⟨1⟩] then some q.text else none }

theorem Target.labelOf?_closedPair (q : Qubit) (l : String) :
    Target.closedPair.labelOf? q = some l ↔ Wiring.joinedPair.qubitOf? l = some q := by
  have hlabel : Target.closedPair.labelOf? q = some l ↔ q ∈ [⟨0⟩, ⟨1⟩] ∧ q.text = l := by
    simp [closedPair]
  rw [hlabel]
  constructor
  · rintro ⟨hq, rfl⟩
    rcases (by simpa using hq : q = ⟨0⟩ ∨ q = ⟨1⟩) with rfl | rfl <;> decide +kernel
  · intro h
    have h : [⟨0⟩, ⟨1⟩].find? (fun q : Qubit => q.text = l) = some q := h
    exact ⟨List.mem_of_find?_eq_some h, by simpa using List.find?_some h⟩

/-- A script by hand: a block without instructions, and a moment that measures twice and
stays open. -/
def pairText : String :=
  "CZ G\nB A\n# CIRQ_CONTEXT_START\n# Gate: \x7b\"XY\":[1,200,50]\x7d\n# Targets: [\"q1\"]\n" ++
  "# CIRQ_CONTEXT_END\nB A\nM q1\nM q0\n"

theorem Circuit.ofScript_toScript_pairText :
    ∃ c s d, Circuit.ofScript .joinedPair none pairText = .ok c ∧ c.toScript .closedPair = .ok s ∧
      Circuit.ofScript .joinedPair none s = .ok d ∧ (d == Target.closedPair.mergeMeasures c) = true := by
  have hrun : ((Circuit.ofScript .joinedPair none pairText).toOption.any fun c =>
      c.moments.all fun m => m.operations.all Operation.readsBack) = true := by decide +kernel
  obtain ⟨c, hc, hall⟩ := (Option.any_eq_true _ _).mp hrun
  have hread : ∀ m ∈ c.moments, ∀ op ∈ m.operations, op.readsBack = true :=
    fun m hm op hop => List.all_eq_true.mp (List.all_eq_true.mp hall m hm) op hop
  have hscript := (toOption_eq_some_iff _ _).mp hc
  have hknown := Wiring.understands_joinedPair
  obtain ⟨s, d, hs, hd, heq⟩ := ofScript_toScript_ofScript .closedPair .joinedPair none pairText c
    Target.labelOf?_closedPair
    (by
      intro q l hl
      have htext : q ∈ [⟨0⟩, ⟨1⟩] ∧ q.text = l := by simpa [Target.closedPair] using hl
      exact htext.2 ▸ q.isWord_text)
    rfl hknown.reachable hknown.names (by decide) hknown.agents rfl hread hscript
  exact ⟨c, s, d, hscript, hs, hd, heq⟩

end PulseScript
