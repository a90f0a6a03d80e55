import Mathlib
import PulseScript.Proofs.MomentLines
import PulseScript.Proofs.RoundTrip

/-!
# Circuits without what is ignored

What is ignored adds nothing to its moment. But a nested circuit is on all qubits of its
operations, ignored or not, and these qubits decide under which label it is sorted, and need
labels. So taking out all ignored operations can only help a circuit to have a script, and
gives the same script where no nested circuit is sorted otherwise.
-/
namespace PulseScript

mutual
/-- The operation without what is ignored in its nested circuits, which are built anew. -/
def Operation.stripped (p : IgnorePolicy) : Operation → Operation
  | .act a qs => .act a qs
  | .subcircuit ⟨ms⟩ n _ => .ofCircuit ⟨strippedMoments p ms⟩ n

def strippedOperations (p : IgnorePolicy) : List Operation → List Operation
  | [] => []
  | op :: ops =>
    if p.ignores op then strippedOperations p ops
    else op.stripped p :: strippedOperations p ops

def strippedMoments (p : IgnorePolicy) : List Moment → List Moment
  | [] => []
  | ⟨ops⟩ :: ms => ⟨strippedOperations p ops⟩ :: strippedMoments p ms
end

/-- The circuit without what is ignored, at any depth. All moments stay. -/
def Circuit.stripped (p : IgnorePolicy) (c : Circuit) : Circuit := ⟨strippedMoments p c.moments⟩

/-- The operation is a nested circuit that the compiler comes to, or holds one. It does not look
into circuits that are repeated zero times. -/
inductive Operation.Reaches : Operation → Circuit → Prop where
  | self {c : Circuit} {n : UInt32} {qs : List Qubit} : Reaches (.subcircuit c n qs) c
  | inner {c d : Circuit} {n : UInt32} {qs : List Qubit} {m : Moment} {op : Operation} (hn : n ≠ 0)
    (hm : m ∈ c.moments) (hop : op ∈ m.operations) (h : Reaches op d) :
    Reaches (.subcircuit c n qs) d

def Circuit.Reaches (c d : Circuit) : Prop := ∃ m ∈ c.moments, ∃ op ∈ m.operations, op.Reaches d

variable {p : IgnorePolicy}

theorem Operation.stripped_subcircuit (c : Circuit) (n : UInt32) (qs : List Qubit) :
    (Operation.subcircuit c n qs).stripped p = .ofCircuit (c.stripped p) n := by
  obtain ⟨ms⟩ := c
  rw [Operation.stripped, Circuit.stripped]

theorem strippedOperations_eq (ops : List Operation) :
    strippedOperations p ops = (ops.filter fun op => !p.ignores op).map (Operation.stripped p) := by
  induction ops with
  | nil => rfl
  | cons op ops ih =>
    rw [strippedOperations, ih]
    cases hop : p.ignores op <;> simp [hop]

theorem strippedMoments_eq (ms : List Moment) :
    strippedMoments p ms = ms.map fun m => ⟨strippedOperations p m.operations⟩ := by
  induction ms with
  | nil => rfl
  | cons m ms ih =>
    obtain ⟨ops⟩ := m
    rw [strippedMoments, ih, List.map_cons]

/-- What holds of all operations that stay holds of those of the stripped moments. -/
theorem forall_mem_strippedMoments {P : Operation → Prop} (ms : List Moment) :
    (∀ m ∈ strippedMoments p ms, ∀ op ∈ m.operations, P op) ↔
      ∀ m ∈ ms, ∀ op ∈ m.operations, p.ignores op = false → P (op.stripped p) := by
  simp only [strippedMoments_eq, strippedOperations_eq, List.forall_mem_map, List.mem_filter,
    Bool.not_eq_true', and_imp]

/-- Stripping takes qubits away and adds none. -/
theorem Operation.qubits_stripped_subset {op : Operation} (hop : op.WellFormed) :
    ∀ q ∈ (op.stripped p).qubits, q ∈ op.qubits := by
  induction op with
  | act a qs => exact fun q hq => hq
  | subcircuit c n qs ih =>
    obtain ⟨rfl, hc⟩ := hop.nested
    have hstay : ∀ m ∈ (c.stripped p).moments, ∀ op ∈ m.operations, ∀ q ∈ op.qubits,
        q ∈ c.qubits := by
      refine (forall_mem_strippedMoments c.moments).mpr fun m hm op hop _ q hq => ?_
      exact Circuit.mem_qubits.mpr ⟨m, hm, op, hop, ih m hm op hop ((hc m hm).each op hop) q hq⟩
    rw [stripped_subcircuit]
    intro q hq
    obtain ⟨m, hm, op, hop, hq⟩ := Circuit.mem_qubits.mp hq
    exact hstay m hm op hop q hq

theorem operationNeedsCouplers_of_ignores {op : Operation} (h : p.ignores op = true) :
    operationNeedsCouplers p op = false := by
  cases op with
  | act a qs =>
    rw [IgnorePolicy.ignores_act] at h
    simp [operationNeedsCouplers, h]
  | subcircuit c n qs => exact absurd h (by simp [p.ignores_subcircuit])

theorem momentsNeedCouplers_stripped {ms : List Moment}
    (hops : ∀ m ∈ ms, ∀ op ∈ m.operations,
      operationNeedsCouplers p (op.stripped p) = operationNeedsCouplers p op) :
    momentsNeedCouplers p (strippedMoments p ms) = momentsNeedCouplers p ms := by
  rw [← Bool.not_inj_iff, Bool.eq_iff_iff]
  simp only [Bool.not_eq_true', ← Bool.not_eq_true, momentsNeedCouplers_iff]
  push Not
  rw [forall_mem_strippedMoments]
  refine forall₂_congr fun m hm => forall₂_congr fun op hop => ?_
  rw [hops m hm op hop]
  refine ⟨fun h => ?_, fun h _ => h⟩
  cases hi : p.ignores op with
  | true => simp [operationNeedsCouplers_of_ignores hi]
  | false => exact h hi

/-- The scan before compiling does not see what is ignored. -/
theorem operationNeedsCouplers_stripped (op : Operation) :
    operationNeedsCouplers p (op.stripped p) = operationNeedsCouplers p op := by
  induction op with
  | act a qs => rfl
  | subcircuit c n qs ih =>
    obtain ⟨ms⟩ := c
    rw [Operation.stripped_subcircuit, Operation.ofCircuit, Circuit.stripped,
      operationNeedsCouplers, operationNeedsCouplers, momentsNeedCouplers_stripped ih]

namespace Target

variable {t : Target}

theorem compiles_of_ignores {op : Operation} (h : t.policy.ignores op = true) : t.Compiles op := by
  cases op with
  | act a qs =>
    exact ⟨.nothing, (t.actionPart_eq_ok_iff a qs _).mpr (.ignored h), trivial⟩
  | subcircuit c n qs => exact absurd h (by simp [t.policy.ignores_subcircuit])

/-- All qubits of the nested circuits that the compiler comes to have labels. -/
def LabelsReached (t : Target) (op : Operation) : Prop :=
  ∀ d, op.Reaches d → ∀ q ∈ d.qubits, t.Labels q

theorem labelsReached_subcircuit_iff (c : Circuit) (n : UInt32) (qs : List Qubit) :
    t.LabelsReached (.subcircuit c n qs) ↔ (∀ q ∈ c.qubits, t.Labels q) ∧
      (n ≠ 0 → ∀ m ∈ c.moments, ∀ op ∈ m.operations, t.LabelsReached op) := by
  constructor
  · intro h
    exact ⟨h c .self, fun hn m hm op hop d hd => h d (.inner hn hm hop hd)⟩
  · rintro ⟨hself, hinner⟩ d hd
    cases hd with
    | self => exact hself
    | inner hn hm hop hd => exact hinner hn _ hm _ hop d hd

/-- The operations of moments compile if those that stay do and all nested circuits are on
labelled qubits, given that this is so for each of them. -/
theorem compiles_moments_iff {ms : List Moment}
    (hops : ∀ m ∈ ms, ∀ op ∈ m.operations,
      t.Compiles op ↔ t.Compiles (op.stripped t.policy) ∧ t.LabelsReached op) :
    (∀ m ∈ ms, ∀ op ∈ m.operations, t.Compiles op) ↔
      (∀ m ∈ strippedMoments t.policy ms, ∀ op ∈ m.operations, t.Compiles op) ∧
        ∀ m ∈ ms, ∀ op ∈ m.operations, t.LabelsReached op := by
  rw [forall_mem_strippedMoments]
  constructor
  · intro h
    exact ⟨fun m hm op hop _ => ((hops m hm op hop).mp (h m hm op hop)).1,
      fun m hm op hop => ((hops m hm op hop).mp (h m hm op hop)).2⟩
  · rintro ⟨hstay, hlabels⟩ m hm op hop
    cases hi : t.policy.ignores op with
    | true => exact compiles_of_ignores hi
    | false => exact (hops m hm op hop).mpr ⟨hstay m hm op hop hi, hlabels m hm op hop⟩

/-- A well-formed operation compiles if it does without what is ignored, and the nested circuits
are on labelled qubits with what is ignored too. -/
theorem compiles_iff_stripped {op : Operation} (hop : op.WellFormed) :
    t.Compiles op ↔ t.Compiles (op.stripped t.policy) ∧ t.LabelsReached op := by
  induction op with
  | act a qs =>
    refine (and_iff_left ?_).symm
    intro d hd
    cases hd
  | subcircuit c n qs ih =>
    have hsubset := Operation.qubits_stripped_subset (p := t.policy) hop
    rw [Operation.stripped_subcircuit] at hsubset ⊢
    obtain ⟨rfl, hc⟩ := hop.nested
    have hinner := compiles_moments_iff fun m hm op hop => ih m hm op hop ((hc m hm).each op hop)
    rw [Operation.ofCircuit, compiles_subcircuit_iff, compiles_subcircuit_iff,
      labelsReached_subcircuit_iff, hinner]
    constructor
    · rintro ⟨hlabels, h⟩
      exact ⟨⟨fun q hq => hlabels q (hsubset q hq), fun hn => (h hn).1⟩, hlabels, fun hn => (h hn).2⟩
    · rintro ⟨⟨-, hstay⟩, hlabels, hreached⟩
      exact ⟨hlabels, fun hn => ⟨hstay hn, hreached hn⟩⟩

/-- The circuit has the same smallest label with and without what is ignored, or none both
times. -/
def SameKey (t : Target) (d : Circuit) : Prop :=
  ∀ key, t.smallestLabel d.qubits = .ok key ↔ t.smallestLabel (d.stripped t.policy).qubits = .ok key

theorem settled?_of_ignores {op : Operation} (h : t.policy.ignores op = true) :
    t.settled? op = some .nothing := by
  cases op with
  | act a qs => exact (settled?_act_eq_some_iff a qs _).mpr (.ignored h)
  | subcircuit c n qs => exact absurd h (by simp [t.policy.ignores_subcircuit])

/-- Moments have the same lines without what is ignored, if what stays adds the same. -/
theorem momentsLines_stripped {ms : List Moment}
    (hops : ∀ m ∈ ms, ∀ op ∈ m.operations, t.settled? (op.stripped t.policy) = t.settled? op)
    (lines : List String) :
    momentsLines t (strippedMoments t.policy ms) = .ok lines ↔ momentsLines t ms = .ok lines := by
  induction ms generalizing lines with
  | nil => rfl
  | cons m ms ih =>
    obtain ⟨ops⟩ := m
    obtain ⟨hfirst, hops⟩ := List.forall_mem_cons.mp hops
    have hmoment : ∀ front, t.Lays (strippedOperations t.policy ops) front ↔ t.Lays ops front := by
      intro front
      have hdrop : ∀ op ∈ ops, (!t.policy.ignores op) = false → t.settled? op = some .nothing :=
        fun op _ hi => settled?_of_ignores (by simpa using hi)
      have hstay := lays_filter_iff hdrop front
      rw [strippedOperations_eq, ← hstay]
      refine lays_iff_of_settled (List.forall₂_map_left_iff.mpr (List.forall₂_same.mpr ?_)) front
      exact fun op hop => hfirst op (List.mem_of_mem_filter hop)
    rw [strippedMoments]
    simp only [momentsLines_cons_eq_ok_iff_lays, hmoment, ih hops]

/-- An operation adds the same without what is ignored, if no nested circuit gets another sort
key by it. -/
theorem settled?_stripped {op : Operation} (hop : op.WellFormed)
    (hkeys : ∀ d, op.Reaches d → t.SameKey d) :
    t.settled? (op.stripped t.policy) = t.settled? op := by
  induction op with
  | act a qs => rfl
  | subcircuit c n qs ih =>
    obtain ⟨rfl, hc⟩ := hop.nested
    refine Option.ext fun part => ?_
    rw [Operation.stripped_subcircuit, Operation.ofCircuit, settled?_subcircuit_eq_some_iff,
      settled?_subcircuit_eq_some_iff]
    simp only [hkeys c .self _]
    by_cases hn : n = 0
    · simp [hn]
    · have hlines := momentsLines_stripped fun m hm op hop =>
        ih m hm op hop ((hc m hm).each op hop) fun d hd => hkeys d (.inner hn hm hop hd)
      simp only [Circuit.stripped, hlines]

end Target

/-- A circuit has a script if and only if it has one without what is ignored, and all qubits of
the nested circuits that the compiler comes to have labels, those of ignored operations
too. The script is the same if each such nested circuit has the same smallest label with
and without the ignored operations. -/
theorem Circuit.toScript_stripped (t : Target) (c : Circuit) (hc : c.Built) :
    ((∃ s, c.toScript t = .ok s) ↔ (∃ s, (c.stripped t.policy).toScript t = .ok s) ∧
      ∀ d, c.Reaches d → ∀ q ∈ d.qubits, t.Labels q) ∧
    ((∀ d, c.Reaches d → t.SameKey d) →
      (c.toScript t).toOption = ((c.stripped t.policy).toScript t).toOption) := by
  have hneed : (c.stripped t.policy).needsCouplers t.policy = c.needsCouplers t.policy :=
    momentsNeedCouplers_stripped fun _ _ op _ => operationNeedsCouplers_stripped op
  constructor
  · have hlines := Target.compiles_moments_iff fun m hm op hop =>
      Target.compiles_iff_stripped (t := t) ((hc.wellFormed m hm).each op hop)
    have hreached : (∀ m ∈ c.moments, ∀ op ∈ m.operations, t.LabelsReached op) ↔
        ∀ d, c.Reaches d → ∀ q ∈ d.qubits, t.Labels q := by
      constructor
      · rintro h d ⟨m, hm, op, hop, hd⟩
        exact h m hm op hop d hd
      · exact fun h m hm op hop d hd => h d ⟨m, hm, op, hop, hd⟩
    rw [toScript_isOk_iff_compiles, toScript_isOk_iff_compiles, hneed]
    simp only [stripped, hlines, hreached, and_assoc]
  · intro hkeys
    have hlines := Target.momentsLines_stripped (t := t) fun m hm op hop =>
      Target.settled?_stripped ((hc.wellFormed m hm).each op hop)
        fun d hd => hkeys d ⟨m, hm, op, hop, hd⟩
    refine Option.ext fun s => ?_
    rw [toOption_eq_some_iff, toOption_eq_some_iff, toScript_eq_ok_iff, toScript_eq_ok_iff, hneed]
    simp only [stripped, hlines]

def Circuit.marked : Circuit := ⟨[⟨[.x ⟨0⟩, .ofMarker (.observable 0) [⟨1⟩]]⟩]⟩

def Circuit.markedLoop : Circuit := ⟨[⟨[.ofCircuit .marked 1]⟩]⟩

theorem Circuit.built_markedLoop : markedLoop.Built := by
  have hx : Operation.Built (.x ⟨0⟩) :=
    .gate (show Operation.ofGate (.standard .x) [⟨0⟩] = .ok _ from rfl)
  have hmoment : Moment.Built ⟨[.x ⟨0⟩, .ofMarker (.observable 0) [⟨1⟩]]⟩ :=
    .push (Moment.built_singleton hx) (.marker (.observable 0) [⟨1⟩]) rfl
  have hloop : Operation.Built (.ofCircuit .marked 1) :=
    .circuit _ 1 (by simpa [marked] using hmoment)
  simpa [Circuit.Built, markedLoop] using Moment.built_singleton hloop

/-- Where both qubits have labels, the marker does not show. -/
theorem Circuit.toScript_stripped_markedLoop :
    ∃ s, markedLoop.toScript .joinedPair = .ok s ∧
      (markedLoop.stripped .standard).toScript .joinedPair = .ok s := by
  have hsome : (markedLoop.toScript .joinedPair).toOption.isSome = true := by decide +kernel
  obtain ⟨s, hs⟩ := Option.isSome_iff_exists.mp hsome
  have hwith : (Target.joinedPair.smallestLabel marked.qubits).toOption = some "q0" := by
    decide +kernel
  have hwithout : (Target.joinedPair.smallestLabel (marked.stripped .standard).qubits).toOption =
      some "q0" := by decide +kernel
  have hkeys : ∀ d, markedLoop.Reaches d → Target.joinedPair.SameKey d := by
    rintro d ⟨m, hm, op, hop, hd⟩
    obtain rfl := List.mem_singleton.mp hm
    obtain rfl := List.mem_singleton.mp hop
    obtain rfl : d = marked := by
      cases hd with
      | self => rfl
      | inner hn hm hop hd =>
        obtain rfl := List.mem_singleton.mp hm
        rcases List.mem_pair.mp hop with rfl | rfl <;> cases hd
    intro key
    rw [← toOption_eq_some_iff, ← toOption_eq_some_iff, hwith]
    exact Eq.congr_left hwithout.symm
  have hsame := (toScript_stripped .joinedPair markedLoop built_markedLoop).2 hkeys
  exact ⟨s, (toOption_eq_some_iff _ _).mp hs, (toOption_eq_some_iff _ _).mp (hsame ▸ hs)⟩

def Target.loneQubit : Target :=
  ⟨fun q => if q = ⟨0⟩ then some "q0" else none, ["q0"], none, .standard⟩

/-- Where only the gate's qubit has a label, the marker is in the way although it is ignored. -/
theorem Circuit.toScript_markedLoop_unlabelled :
    markedLoop.Built ∧ ¬ (∃ s, markedLoop.toScript .loneQubit = .ok s) ∧
      (markedLoop.stripped .standard).toScript .loneQubit = .ok "X q0\nB q0\n" := by
  have hnone : (markedLoop.toScript .loneQubit).toOption = none := by decide +kernel
  have hsome : ((markedLoop.stripped .standard).toScript .loneQubit).toOption =
      some "X q0\nB q0\n" := by decide +kernel
  refine ⟨built_markedLoop, ?_, (toOption_eq_some_iff _ _).mp hsome⟩
  rintro ⟨s, hs⟩
  rw [← toOption_eq_some_iff, hnone] at hs
  exact absurd hs (by simp)

end PulseScript
