import Mathlib
import PulseScript.Proofs.Domain
import PulseScript.Proofs.Returning

/-!
# Native circuits come back

A circuit of pulses, delays, decoupling sequences, gates on couplers and measurements is
read back from its script as an equal circuit, moment by moment. The durations of decoupling
sequences are written as decimal numbers and must read back as they were; all else does.
-/
namespace PulseScript

inductive Operation.Native : Operation → Prop where
  | x (q : Qubit) : Native (.x q)
  | y (q : Qubit) : Native (.y q)
  | rx (q : Qubit) : Native (.rx (.constant Binary64.quarterTurn) q)
  | rxBack (q : Qubit) : Native (.rx (.constant (-Binary64.quarterTurn)) q)
  | ry (q : Qubit) : Native (.ry (.constant Binary64.quarterTurn) q)
  | ryBack (q : Qubit) : Native (.ry (.constant (-Binary64.quarterTurn)) q)
  | cz {p q : Qubit} {op : Operation} (h : Operation.cz p q = .ok op) : Native op
  | delay (q : Qubit) (nanoseconds : UInt64) : Native (.ofDelay q nanoseconds)
  | decoupling {d : Decoupling} (h : d.validate = .ok ()) (q : Qubit) : Native (.ofDecoupling d q)
  | measure {qs : List Qubit} {op : Operation} (h : Operation.ofMeasure qs = .ok op) : Native op

/-- At most one operation measures, and its qubits stand in the order of their labels. -/
structure Moment.MeasuresInOrder (t : Target) (m : Moment) : Prop where
  once : (m.operations.filter fun op => decide (op.measured ≠ [])).length ≤ 1
  order : ∀ op ∈ m.operations, op.measured.Pairwise fun p q => t.labelText p ≤ t.labelText q

/-- Native operations come back as they were. -/
theorem Operation.Native.direct {op : Operation} (h : op.Native) : op.Direct := by
  cases h with
  | x q => exact .gate (m := .x) rfl (by simp)
  | y q => exact .gate (m := .y) rfl (by simp)
  | rx q => exact .gate (m := .x2p) rfl (by simp)
  | rxBack q => exact .gate (m := .x2m) rfl (by simp)
  | ry q => exact .gate (m := .y2p) rfl (by simp)
  | ryBack q => exact .gate (m := .y2m) rfl (by simp)
  | cz h =>
    obtain ⟨-, rfl⟩ := (Operation.ofGate_eq_ok_iff _ _ _).mp h
    exact .gate (m := .cz) rfl (by simp)
  | delay q ns => exact .delay q ns
  | decoupling h q => exact .decoupling h q
  | measure h =>
    obtain ⟨⟨hne, -⟩, rfl⟩ := (Operation.ofMeasure_eq_ok_iff _ _).mp h
    exact .measure hne

theorem flatMap_measured_filter (ops : List Operation) :
    ops.flatMap Operation.measured =
      (ops.filter fun op => decide (op.measured ≠ [])).flatMap Operation.measured := by
  induction ops with
  | nil => rfl
  | cons op ops ih =>
    by_cases h : op.measured = []
    · simp [h, ih]
    · simp [h, ih]

/-- Where measurements stand in order, one measurement for all of them is the one there is. -/
theorem Moment.MeasuresInOrder.merged_eq {t : Target} {m : Moment} (h : m.MeasuresInOrder t) :
    t.merged m.operations = m.operations.filter fun op => decide (op.measured ≠ []) := by
  have hmem : ∀ op ∈ m.operations.filter (fun op => decide (op.measured ≠ [])),
      op ∈ m.operations ∧ op.measured ≠ [] := by
    intro op hop
    simpa using List.mem_filter.mp hop
  have hmeasured := flatMap_measured_filter m.operations
  have honce := h.once
  generalize m.operations.filter (fun op => decide (op.measured ≠ [])) = measures
    at hmem honce hmeasured ⊢
  cases measures with
  | nil => exact Target.merged_of_eq_nil hmeasured
  | cons op rest =>
    obtain rfl : rest = [] := by simpa using honce
    obtain ⟨hop, hne⟩ := hmem op (by simp)
    rw [List.flatMap_singleton] at hmeasured
    have hsorted : t.byLabel op.measured = op.measured :=
      List.mergeSort_of_pairwise ((h.order _ hop).imp fun hle => by simpa using hle)
    rw [Target.merged_of_ne_nil (by rwa [hmeasured]), hmeasured, hsorted,
      Operation.act_measured hne]

/-- A moment of direct operations with its measurements in order holds its entries and one
measurement for all. -/
theorem Moment.MeasuresInOrder.perm {t : Target} {m : Moment} (h : m.MeasuresInOrder t)
    (hdirect : ∀ op ∈ m.operations, op.Direct)
    (hkept : ∀ op ∈ m.operations, t.policy.ignores op = false) :
    m.operations.Perm (m.operations.filter t.isEntry ++ t.merged m.operations) := by
  have hrest : (m.operations.filter fun op => decide (op.measured ≠ [])) =
      m.operations.filter fun op => !t.isEntry op := by
    refine List.filter_congr fun op hop => ?_
    have hiff := (hdirect op hop).isEntry_iff (hkept op hop)
    by_cases hentry : t.isEntry op = true
    · simp [hentry, hiff.mp hentry]
    · simpa [hentry] using fun he => hentry (hiff.mpr he)
  rw [h.merged_eq, hrest]
  exact (List.filter_append_perm _ _).symm

/-- A native circuit comes back from its script. The circuit's measurements are in order, no
operation is ignored, labels stand for their qubits, names can stand in a line, and the
durations of its decoupling sequences read back as they were. -/
theorem Circuit.ofScript_toScript_native (t : Target) (w : Wiring) (c : Circuit) (s : String)
    (hbuilt : c.Built) (hnative : ∀ m ∈ c.moments, ∀ op ∈ m.operations, op.Native)
    (hkept : ∀ m ∈ c.moments, ∀ op ∈ m.operations, t.policy.ignores op = false)
    (horder : ∀ m ∈ c.moments, m.MeasuresInOrder t) (hw : w.Understands t c.qubits)
    (hread : ∀ m ∈ c.moments, ∀ op ∈ m.operations, op.readsBack = true)
    (hs : c.toScript t = .ok s) :
    ∃ d, Circuit.ofScript w none s = .ok d ∧ (d == c) = true := by
  have hdirect : ∀ m ∈ c.moments, ∀ op ∈ m.operations, op.Direct :=
    fun m hm op hop => (hnative m hm op hop).direct
  refine exists_ofScript_beq hbuilt.wellFormed hdirect hw hread ?_ hs
  rw [List.forall₂_same]
  intro m hm
  exact (horder m hm).perm (hdirect m hm) (hkept m hm)

def Wiring.joinedPair : Wiring :=
  ⟨fun l => [⟨0⟩, ⟨1⟩].find? fun q : Qubit => q.text = l, Target.joinedPair.couplers⟩

theorem Wiring.understands_joinedPair :
    Wiring.joinedPair.Understands .joinedPair [⟨0⟩, ⟨1⟩] := by
  have hregistry : ∀ r, Target.joinedPair.couplers = some r →
      r = CouplerRegistry.empty.insert "G" "q0" "q1" :=
    fun r hr => (Option.some.inj hr).symm
  refine ⟨⟨?_, rfl, ?_, ?_⟩, ?_⟩
  · intro q hq l hl
    obtain rfl : q.text = l := Option.some.inj hl
    simp only [List.mem_cons, List.not_mem_nil, or_false] at hq
    refine ⟨?_, q.isWord_text⟩
    rcases hq with rfl | rfl <;> decide +kernel
  · intro r hr
    rw [hregistry r hr]
    exact .insert .empty _ _ _
  · intro r hr name pair hpair
    rw [hregistry r hr, CouplerRegistry.pairFor?_insert] at hpair
    have hname : "G" = name := by
      by_contra hne
      rw [if_neg hne] at hpair
      exact absurd hpair (by simp [CouplerRegistry.pairFor?, CouplerRegistry.empty])
    simp [← hname, IsWord]
  · intro a ha
    obtain rfl : a = "A" := by simpa [Target.joinedPair] using ha
    simp [IsWord]

def Decoupling.shortEcho : Decoupling := ⟨.xy, 1, .ofNat 200, .ofNat 50⟩

def Circuit.pairSteps : Circuit :=
  ⟨[⟨[.onCoupler [⟨1⟩, ⟨0⟩]]⟩, .empty, ⟨[.ofDecoupling .shortEcho ⟨1⟩]⟩, ⟨[.act .measure [⟨0⟩]]⟩]⟩

theorem Circuit.ofScript_toScript_pairSteps :
    ∃ s d, pairSteps.toScript .joinedPair = .ok s ∧ Circuit.ofScript .joinedPair none s = .ok d ∧
      (d == pairSteps) = true := by
  have hcz : Operation.cz ⟨1⟩ ⟨0⟩ = .ok (.onCoupler [⟨1⟩, ⟨0⟩]) := rfl
  have hmeasure : Operation.ofMeasure [⟨0⟩] = .ok (.act .measure [⟨0⟩]) := rfl
  have hvalid : Decoupling.shortEcho.validate = .ok () := by decide +kernel
  have hback : Decoupling.shortEcho.ReadsBack := by decide +kernel
  have hqubits : pairSteps.qubits = [⟨0⟩, ⟨1⟩] := by decide +kernel
  have hcases : ∀ m ∈ pairSteps.moments, ∀ op ∈ m.operations,
      op = .onCoupler [⟨1⟩, ⟨0⟩] ∨ op = .ofDecoupling .shortEcho ⟨1⟩ ∨ op = .act .measure [⟨0⟩] := by
    simp [pairSteps, Moment.empty]
  have hbuilt : pairSteps.Built := by
    simpa [Circuit.Built, pairSteps] using ⟨Moment.built_singleton (.gate hcz), .empty,
      Moment.built_singleton (.decoupling .shortEcho ⟨1⟩), Moment.built_singleton (.measure hmeasure)⟩
  obtain ⟨s, hs⟩ : ∃ s, pairSteps.toScript .joinedPair = .ok s := by
    have hsome : (pairSteps.toScript .joinedPair).toOption.isSome = true := by decide +kernel
    obtain ⟨s, hs⟩ := Option.isSome_iff_exists.mp hsome
    exact ⟨s, (toOption_eq_some_iff _ _).mp hs⟩
  obtain ⟨d, hd, heq⟩ := ofScript_toScript_native .joinedPair .joinedPair pairSteps s hbuilt
    (by
      intro m hm op hop
      rcases hcases m hm op hop with rfl | rfl | rfl
      · exact .cz hcz
      · exact .decoupling hvalid _
      · exact .measure hmeasure)
    (fun m hm op hop => by rcases hcases m hm op hop with rfl | rfl | rfl <;> decide)
    (by
      intro m hm
      refine ⟨?_, ?_⟩
      · fin_cases hm <;> decide
      · intro op hop
        rcases hcases m hm op hop with rfl | rfl | rfl <;>
          simp [Operation.measured, Operation.onCoupler, Operation.ofDecoupling])
    (hqubits ▸ Wiring.understands_joinedPair)
    (by
      intro m hm op hop
      rcases hcases m hm op hop with rfl | rfl | rfl
      · rfl
      · exact decide_eq_true hback
      · rfl)
    hs
  exact ⟨s, d, hs, hd, heq⟩

end PulseScript
