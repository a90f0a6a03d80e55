import Mathlib
import PulseScript.Proofs.Construction
import PulseScript.Proofs.Couplers
import PulseScript.Proofs.Parts

/-!
# Which circuits have a script

The compiler stops at the first operation that it cannot write. Here stands exactly which
operations it can write, at any depth, and from this which circuits have a script: the
conditions speak of labels, couplers and instructions, and not of the run of the compiler.
-/
namespace PulseScript

/-- An operation of the circuit, or of a circuit nested in it, at any depth and whatever
the repetitions are. -/
inductive Circuit.Holds : Circuit → Operation → Prop where
  | here {c : Circuit} {m : Moment} {op : Operation} (hm : m ∈ c.moments)
    (ho : op ∈ m.operations) : Holds c op
  | nested {c d : Circuit} {m : Moment} {n : UInt32} {qs : List Qubit} {op : Operation}
    (hm : m ∈ c.moments) (hd : .subcircuit d n qs ∈ m.operations) (h : Holds d op) : Holds c op

/-- The operation that is compiled to an instruction on a coupler. -/
def Operation.onCoupler (qs : List Qubit) : Operation := .act (.gate (.standard .cz)) qs

namespace Target

def Labels (t : Target) (q : Qubit) : Prop := ∃ l, t.labelOf? q = some l

/-- Some coupler joins the labels of the two qubits, in one order or the other. -/
def Couples (t : Target) (p q : Qubit) : Prop :=
  ∃ r lp lq, t.couplers = some r ∧ t.labelOf? p = some lp ∧ t.labelOf? q = some lq ∧
    ∃ name, r.pairFor? name = some (lp, lq) ∨ r.pairFor? name = some (lq, lp)

/-- What can be written: a measurement of labelled qubits, a valid decoupling sequence on a
labelled qubit, an action that changes nothing, an action with an instruction whose qubits
have labels and, where the instruction takes a coupler, a coupler, and a nested circuit
on labelled qubits that is never repeated or holds only what can be written or is ignored. -/
inductive Admits (t : Target) : Operation → Prop where
  | measure {qs : List Qubit} (h : ∀ q ∈ qs, t.Labels q) : Admits t (.act .measure qs)
  | decoupling {d : Decoupling} {qs : List Qubit} (hd : d.validate = .ok ())
    (h : ∀ q ∈ qs, t.Labels q) : Admits t (.act (.decoupling d) qs)
  | identity {a : Action} {qs : List Qubit} (hr : a.resolve? = some .identity) :
    Admits t (.act a qs)
  | instruction {a : Action} {qs : List Qubit} {m : Mnemonic}
    (hr : a.resolve? = some (.instruction m)) (h : ∀ q ∈ qs, t.Labels q)
    (hc : m = .cz → ∀ p q, qs = [p, q] → t.Couples p q) : Admits t (.act a qs)
  | skipped {c : Circuit} {qs : List Qubit} (h : ∀ q ∈ qs, t.Labels q) :
    Admits t (.subcircuit c 0 qs)
  | repeated {c : Circuit} {n : UInt32} {qs : List Qubit} (h : ∀ q ∈ qs, t.Labels q)
    (hi : ∀ m ∈ c.moments, ∀ op ∈ m.operations, t.policy.ignores op = false → Admits t op) :
    Admits t (.subcircuit c n qs)

variable {t : Target}

theorem contextLines_isOk_iff (d : Decoupling) (l : String) :
    (∃ lines, d.contextLines l = .ok lines) ↔ d.validate = .ok () := by
  unfold Decoupling.contextLines
  cases d.validate <;> simp

/-- An action with an instruction has a part if its qubits have labels and a coupler. -/
theorem exists_gives_of_instruction {a : Action} {qs : List Qubit} {m : Mnemonic}
    (hindex : ∀ r, t.couplers = some r → r.Indexed) (htakes : a.Takes qs)
    (hi : t.policy.ignoresAction a = false) (hr : a.resolve? = some (.instruction m))
    (h : ∀ q ∈ qs, t.Labels q) (hc : m = .cz → ∀ p q, qs = [p, q] → t.Couples p q) :
    ∃ part, t.Gives a qs part ∧ part.Playable := by
  rcases Action.resolve?_eq_instruction hr with ⟨g, rfl, hg, ho⟩ | ⟨rfl, rfl⟩ | ⟨ns, rfl, rfl⟩ | ⟨rfl, rfl⟩
  · obtain ⟨q, rfl⟩ := List.length_eq_one_iff.mp (show qs.length = 1 by
      simpa [Gate.arity, hg] using Action.length_of_takes htakes (by simp [Gate.arity, hg]))
    obtain ⟨l, hl⟩ := h q (by simp)
    exact ⟨_, .pulse hi hr ho hl, trivial⟩
  · obtain ⟨p, q, rfl⟩ := List.length_eq_two.mp (Action.length_of_takes htakes (by decide))
    obtain ⟨r, lp, lq, hr, hp, hq, hjoin⟩ := hc rfl p q rfl
    obtain ⟨name, hname⟩ := ((hindex r hr).exists_nameFor?_iff lp lq).mpr hjoin
    exact ⟨_, .coupled hi hp hq hr hname, trivial⟩
  · obtain ⟨q, rfl⟩ := htakes
    obtain ⟨l, hl⟩ := h q (by simp)
    exact ⟨_, .idle hi hl, trivial⟩
  · obtain ⟨ls, hls⟩ := (exists_forall₂_iff _ qs).mpr h
    exact ⟨_, .measure hi hls, trivial⟩

/-- What an action needs to have a part is what the conditions on it say. -/
theorem exists_gives_iff {a : Action} {qs : List Qubit}
    (hindex : ∀ r, t.couplers = some r → r.Indexed) (htakes : a.Takes qs) :
    (∃ part, t.Gives a qs part ∧ part.Playable) ↔
      (t.policy.ignoresAction a = false → t.Admits (.act a qs)) := by
  constructor
  · rintro ⟨part, hgives, -⟩ hi
    cases hgives with
    | ignored h => exact absurd h (by simp [hi])
    | identity _ hr => exact .identity hr
    | measure _ hl => exact .measure ((exists_forall₂_iff _ qs).mp ⟨_, hl⟩)
    | decoupling _ hl hd =>
      exact .decoupling ((contextLines_isOk_iff _ _).mp ⟨_, hd⟩) (by simpa using ⟨_, hl⟩)
    | pulse _ hr hm hl =>
      refine .instruction hr (by simpa using ⟨_, hl⟩) ?_
      rintro rfl
      exact absurd hm (by decide)
    | coupled _ hp hq hr hn =>
      refine .instruction (m := .cz) rfl (by simpa using ⟨⟨_, hp⟩, ⟨_, hq⟩⟩) ?_
      intro _ p q hpq
      obtain ⟨rfl, rfl⟩ : _ = p ∧ _ = q := by simpa using hpq
      exact ⟨_, _, _, hr, hp, hq, _, (hindex _ hr).pairFor?_of_nameFor? hn⟩
    | idle _ hl =>
      exact .instruction (m := .idle) rfl (by simpa using ⟨_, hl⟩) (fun h => absurd h (by decide))
  · intro h
    cases hi : t.policy.ignoresAction a with
    | true => exact ⟨_, .ignored hi, trivial⟩
    | false =>
      cases h hi with
      | measure hl =>
        obtain ⟨ls, hls⟩ := (exists_forall₂_iff _ qs).mpr hl
        exact ⟨_, .measure hi hls, trivial⟩
      | decoupling hd hl =>
        obtain ⟨q, rfl⟩ := htakes
        obtain ⟨l, hl⟩ := hl q (by simp)
        obtain ⟨lines, hlines⟩ := (contextLines_isOk_iff _ l).mpr hd
        exact ⟨_, .decoupling hi hl hlines, trivial⟩
      | identity hr => exact ⟨_, .identity hi hr, trivial⟩
      | instruction hr hl hc => exact exists_gives_of_instruction hindex htakes hi hr hl hc

/-- A well-formed operation compiles if it is ignored or can be written. -/
theorem compiles_iff {op : Operation} (hindex : ∀ r, t.couplers = some r → r.Indexed)
    (hop : op.WellFormed) :
    t.Compiles op ↔ (t.policy.ignores op = false → t.Admits op) := by
  induction op with
  | act a qs =>
    cases hop with
    | act htakes =>
      simp only [Compiles, operationPart_act, actionPart_eq_ok_iff, IgnorePolicy.ignores_act]
      exact exists_gives_iff hindex htakes
  | subcircuit c n qs ih =>
    have hc : c.WellFormed := hop.nested.2
    have hinner : (∀ m ∈ c.moments, ∀ op ∈ m.operations, t.Compiles op) ↔
        ∀ m ∈ c.moments, ∀ op ∈ m.operations, t.policy.ignores op = false → t.Admits op :=
      forall₂_congr fun m hm => forall₂_congr fun op ho => ih m hm op ho ((hc m hm).each op ho)
    rw [compiles_subcircuit_iff, hinner]
    constructor
    · rintro ⟨hlabels, hi⟩ -
      by_cases hn : n = 0
      · subst hn
        exact .skipped hlabels
      · exact .repeated hlabels (hi hn)
    · intro h
      cases h (t.policy.ignores_subcircuit c n qs) with
      | skipped hlabels => exact ⟨hlabels, fun hn => absurd rfl hn⟩
      | repeated hlabels hi => exact ⟨hlabels, fun _ => hi⟩

end Target

theorem operationsNeedCouplers_eq_any (p : IgnorePolicy) (ops : List Operation) :
    operationsNeedCouplers p ops = ops.any (operationNeedsCouplers p) := by
  induction ops with
  | nil => rfl
  | cons op ops ih => rw [operationsNeedCouplers, ih, List.any_cons]

theorem momentsNeedCouplers_iff (p : IgnorePolicy) (ms : List Moment) :
    momentsNeedCouplers p ms = true ↔
      ∃ m ∈ ms, ∃ op ∈ m.operations, operationNeedsCouplers p op = true := by
  induction ms with
  | nil => simp [momentsNeedCouplers]
  | cons m ms ih =>
    obtain ⟨ops⟩ := m
    simp [momentsNeedCouplers, operationsNeedCouplers_eq_any, ih]

theorem Circuit.holds_iff (c : Circuit) (op : Operation) :
    c.Holds op ↔ ∃ m ∈ c.moments, ∃ x ∈ m.operations,
      x = op ∨ ∃ d n qs, x = .subcircuit d n qs ∧ d.Holds op := by
  constructor
  · intro h
    cases h with
    | here hm ho => exact ⟨_, hm, _, ho, .inl rfl⟩
    | nested hm hd h => exact ⟨_, hm, _, hd, .inr ⟨_, _, _, rfl, h⟩⟩
  · rintro ⟨m, hm, x, hx, rfl | ⟨d, n, qs, rfl, h⟩⟩
    · exact .here hm hx
    · exact .nested hm hx h

/-- An operation needs couplers if it is on a coupler and not ignored, or holds what is. -/
theorem operationNeedsCouplers_iff (p : IgnorePolicy) (op : Operation) :
    operationNeedsCouplers p op = true ↔
      ∃ qs, p.ignores (.onCoupler qs) = false ∧
        (op = .onCoupler qs ∨ ∃ d n rs, op = .subcircuit d n rs ∧ d.Holds (.onCoupler qs)) := by
  induction op with
  | act a qs =>
    simp only [operationNeedsCouplers, Bool.and_eq_true, Bool.not_eq_true',
      Action.needsCoupler_iff]
    constructor
    · rintro ⟨hi, rfl⟩
      exact ⟨qs, hi, .inl rfl⟩
    · rintro ⟨rs, hi, he | ⟨d, n, rs, he, -⟩⟩
      · obtain ⟨rfl, rfl⟩ : a = .gate (.standard .cz) ∧ qs = rs := by
          simpa [Operation.onCoupler] using he
        exact ⟨hi, rfl⟩
      · exact absurd he (by simp)
  | subcircuit c n rs ih =>
    have hneed : operationNeedsCouplers p (.subcircuit c n rs) = momentsNeedCouplers p c.moments := by
      obtain ⟨ms⟩ := c
      rw [operationNeedsCouplers]
    rw [hneed, momentsNeedCouplers_iff]
    constructor
    · rintro ⟨m, hm, op, ho, h⟩
      obtain ⟨qs, hi, hop⟩ := (ih m hm op ho).mp h
      exact ⟨qs, hi, .inr ⟨c, n, rs, rfl, (c.holds_iff _).mpr ⟨m, hm, op, ho, hop⟩⟩⟩
    · rintro ⟨qs, hi, he | ⟨d, k, ps, he, h⟩⟩
      · exact absurd he (by simp [Operation.onCoupler])
      · obtain ⟨rfl, -, -⟩ : c = d ∧ n = k ∧ rs = ps := by simpa using he
        obtain ⟨m, hm, op, ho, hop⟩ := (c.holds_iff _).mp h
        exact ⟨m, hm, op, ho, (ih m hm op ho).mpr ⟨qs, hi, hop⟩⟩

/-- The scan before compiling finds exactly what is on a coupler and not ignored. -/
theorem Circuit.needsCouplers_eq_false_iff (p : IgnorePolicy) (c : Circuit) :
    c.needsCouplers p = false ↔
      ∀ qs, c.Holds (.onCoupler qs) → p.ignores (.onCoupler qs) = true := by
  rw [← Bool.not_eq_true, needsCouplers, momentsNeedCouplers_iff]
  constructor
  · intro h qs hholds
    by_contra hi
    obtain ⟨m, hm, op, ho, hop⟩ := (c.holds_iff _).mp hholds
    exact h ⟨m, hm, op, ho, (operationNeedsCouplers_iff p op).mpr ⟨qs, by simpa using hi, hop⟩⟩
  · rintro h ⟨m, hm, op, ho, hneed⟩
    obtain ⟨qs, hi, hop⟩ := (operationNeedsCouplers_iff p op).mp hneed
    rw [h qs ((c.holds_iff _).mpr ⟨m, hm, op, ho, hop⟩)] at hi
    exact absurd hi (by simp)

/-- A circuit that was built through the constructors has a script if and only if there is
an agent, there are couplers unless no operation that is not ignored is on one, at any
depth, and every operation that is not ignored can be written. -/
theorem Circuit.toScript_isOk_iff (t : Target) (c : Circuit) (hc : c.Built)
    (hr : ∀ r, t.couplers = some r → r.Reachable) :
    (∃ s, c.toScript t = .ok s) ↔
      t.agents ≠ [] ∧
      ((∃ r, t.couplers = some r) ∨
        ∀ qs, c.Holds (.onCoupler qs) → t.policy.ignores (.onCoupler qs) = true) ∧
      ∀ m ∈ c.moments, ∀ op ∈ m.operations, t.policy.ignores op = false → t.Admits op := by
  have hindex : ∀ r, t.couplers = some r → r.Indexed := fun r h => (hr r h).indexed
  have hlines : (∃ lines, momentsLines t c.moments = .ok lines) ↔
      ∀ m ∈ c.moments, ∀ op ∈ m.operations, t.policy.ignores op = false → t.Admits op := by
    rw [momentsLines_isOk_iff]
    have hop : ∀ m ∈ c.moments, ∀ op ∈ m.operations,
        (t.Compiles op ↔ (t.policy.ignores op = false → t.Admits op)) :=
      fun m hm op ho => Target.compiles_iff hindex ((hc.wellFormed m hm).each op ho)
    exact ⟨fun h m hm op ho => (hop m hm op ho).mp (h m hm op ho),
      fun h m hm op ho => (hop m hm op ho).mpr (h m hm op ho)⟩
  simp only [toScript_eq_ok_iff, needsCouplers_eq_false_iff, Option.isSome_iff_exists]
  rw [← hlines]
  constructor
  · rintro ⟨s, ha, hn, lines, hl, -⟩
    exact ⟨ha, hn, lines, hl⟩
  · rintro ⟨ha, hn, lines, hl⟩
    exact ⟨_, ha, hn, lines, hl, rfl⟩

/-- A device of two qubits with a coupler, and more qubits without. -/
def Target.joinedPair : Target :=
  ⟨fun q => some q.text, ["A"], some (CouplerRegistry.empty.insert "G" "q0" "q1"), .standard⟩

def Circuit.besidePair : Circuit :=
  ⟨[⟨[.onCoupler [⟨1⟩, ⟨0⟩], .ofCircuit ⟨[⟨[.x ⟨2⟩]⟩]⟩ 2]⟩]⟩

theorem Circuit.built_besidePair : Circuit.besidePair.Built := by
  have hgate : Operation.Built (.onCoupler [⟨1⟩, ⟨0⟩]) :=
    .gate (show Operation.ofGate (.standard .cz) [⟨1⟩, ⟨0⟩] = .ok _ from rfl)
  have hinner : Moment.Built ⟨[.x ⟨2⟩]⟩ :=
    .push .empty (.gate (show Operation.ofGate (.standard .x) [⟨2⟩] = .ok _ from rfl)) rfl
  have hcircuit : Operation.Built (.ofCircuit ⟨[⟨[.x ⟨2⟩]⟩]⟩ 2) :=
    .circuit _ 2 (by simpa using hinner)
  have hqubits : (Circuit.mk [⟨[.x ⟨2⟩]⟩]).qubits = [⟨2⟩] := by decide +kernel
  intro m hm
  rw [List.mem_singleton.mp hm]
  refine .push (.push .empty hgate rfl) hcircuit ((Moment.push_eq_ok_iff _ _ _).mpr ⟨?_, rfl⟩)
  simp [Moment.empty, Operation.Apart, Operation.ofCircuit, Operation.onCoupler, Operation.qubits,
    hqubits]

theorem Circuit.toScript_isOk_besidePair : ∃ s, besidePair.toScript .joinedPair = .ok s := by
  have hcoupled : Target.joinedPair.Couples ⟨1⟩ ⟨0⟩ :=
    ⟨_, "q1", "q0", rfl, by decide, by decide, "G", .inr (by decide +kernel)⟩
  refine (toScript_isOk_iff .joinedPair besidePair built_besidePair ?_).mpr
    ⟨by decide, .inl ⟨_, rfl⟩, ?_⟩
  · intro r hr
    obtain rfl : CouplerRegistry.empty.insert "G" "q0" "q1" = r := by
      simpa [Target.joinedPair] using hr
    exact .insert .empty _ _ _
  · have hlabels : ∀ q, Target.joinedPair.Labels q := fun q => ⟨q.text, rfl⟩
    intro m hm op hop _
    rw [List.mem_singleton.mp hm] at hop
    rcases List.mem_cons.mp hop with rfl | hop
    · refine .instruction (m := .cz) rfl (fun q _ => hlabels q) ?_
      intro _ p q hpq
      obtain ⟨rfl, rfl⟩ : ⟨1⟩ = p ∧ ⟨0⟩ = q := by simpa using hpq
      exact hcoupled
    · rw [List.mem_singleton.mp hop]
      refine .repeated (fun q _ => hlabels q) ?_
      intro m hm op hop _
      rw [List.mem_singleton.mp hm] at hop
      rw [List.mem_singleton.mp hop]
      exact .instruction (m := .x) rfl (fun q _ => hlabels q) (fun h => absurd h (by decide))

end PulseScript
