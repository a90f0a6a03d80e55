import Mathlib
import PulseScript.Proofs.MomentText

/-!
# Unrolled circuits and the tracks of qubits

A circuit is unrolled by putting in place of each nested circuit its repetitions. What
counts of the result is the track of each qubit: the operations that it takes part in, one
after the other, as they look from it.
-/
namespace PulseScript

mutual
/-- The operation itself, or what its circuit is unrolled to, so many times over. -/
def Operation.unrolled : Operation → List Operation
  | .act a qs => [.act a qs]
  | .subcircuit ⟨ms⟩ n _ => (List.replicate n.toNat (momentsUnrolled ms)).flatten

def operationsUnrolled : List Operation → List Operation
  | [] => []
  | op :: ops => op.unrolled ++ operationsUnrolled ops

def momentsUnrolled : List Moment → List Operation
  | [] => []
  | ⟨ops⟩ :: ms => operationsUnrolled ops ++ momentsUnrolled ms
end

def Circuit.unrolled (c : Circuit) : List Operation := momentsUnrolled c.moments

def Operation.isNested : Operation → Bool
  | .subcircuit .. => true
  | _ => false

theorem operationsUnrolled_eq (ops : List Operation) :
    operationsUnrolled ops = ops.flatMap Operation.unrolled := by
  induction ops with
  | nil => rfl
  | cons op ops ih => rw [operationsUnrolled, ih, List.flatMap_cons]

theorem momentsUnrolled_eq (ms : List Moment) :
    momentsUnrolled ms = ms.flatMap fun m => m.operations.flatMap Operation.unrolled := by
  induction ms with
  | nil => rfl
  | cons m ms ih =>
    obtain ⟨ops⟩ := m
    rw [momentsUnrolled, ih, operationsUnrolled_eq, List.flatMap_cons]

namespace Operation

theorem unrolled_act (a : Action) (qs : List Qubit) :
    (Operation.act a qs).unrolled = [.act a qs] := by
  rw [unrolled]

theorem unrolled_subcircuit (c : Circuit) (n : UInt32) (qs : List Qubit) :
    (Operation.subcircuit c n qs).unrolled = (List.replicate n.toNat c.unrolled).flatten := by
  obtain ⟨ms⟩ := c
  rw [unrolled, Circuit.unrolled]

/-- Without nested circuits there is nothing to unroll. -/
theorem flatMap_unrolled_of_flat {ops : List Operation} (h : ∀ op ∈ ops, op.isNested = false) :
    ops.flatMap unrolled = ops := by
  induction ops with
  | nil => rfl
  | cons op ops ih =>
    rw [List.flatMap_cons, ih fun x hx => h x (List.mem_cons_of_mem op hx)]
    cases op with
    | act a qs => rw [unrolled_act, List.singleton_append]
    | subcircuit c n qs => exact absurd (h (.subcircuit c n qs) (by simp)) (by simp [isNested])

/-- What a well-formed operation is unrolled to is well-formed and on its qubits. -/
theorem WellFormed.of_mem_unrolled {op x : Operation} (h : op.WellFormed)
    (hx : x ∈ op.unrolled) : x.WellFormed ∧ x.qubits ⊆ op.qubits := by
  induction op with
  | act a qs =>
    rw [unrolled_act, List.mem_singleton] at hx
    subst hx
    exact ⟨h, fun q hq => hq⟩
  | subcircuit c n qs ih =>
    obtain ⟨rfl, hc⟩ := h.nested
    rw [unrolled_subcircuit, List.mem_flatten] at hx
    obtain ⟨run, hrun, hx⟩ := hx
    rw [List.eq_of_mem_replicate hrun, Circuit.unrolled, momentsUnrolled_eq, List.mem_flatMap] at hx
    obtain ⟨m, hm, hx⟩ := hx
    obtain ⟨op, hop, hx⟩ := List.mem_flatMap.mp hx
    obtain ⟨hwell, hsub⟩ := ih m hm op hop ((hc m hm).each op hop) hx
    exact ⟨hwell, fun q hq => Circuit.mem_qubits.mpr ⟨m, hm, op, hop, hsub hq⟩⟩

/-- The operation as it looks from one of its qubits, which stands first. Of a measurement
a qubit sees only that it is measured. -/
def seenFrom (q : Qubit) : Operation → Operation
  | .act .measure _ => .act .measure [q]
  | .act a qs => .act a (q :: qs.erase q)
  | op => op

theorem seenFrom_act {a : Action} (ha : a ≠ .measure) (q : Qubit) (qs : List Qubit) :
    (Operation.act a qs).seenFrom q = .act a (q :: qs.erase q) := by
  cases a with
  | measure => exact absurd rfl ha
  | _ => rfl

/-- A sequence looks like a sequence, and nothing else does. -/
theorem exists_of_seenFrom_decoupling {op : Operation} {q : Qubit} {d : Decoupling}
    {qs : List Qubit} (h : op.seenFrom q = .act (.decoupling d) qs) :
    ∃ rs, op = .act (.decoupling d) rs := by
  cases op with
  | act a rs =>
    by_cases ha : a = .measure
    · subst ha
      exact absurd h (by simp [seenFrom])
    · rw [seenFrom_act ha] at h
      obtain ⟨rfl, -⟩ : a = .decoupling d ∧ _ = qs := by simpa using h
      exact ⟨rs, rfl⟩
  | subcircuit c n rs => exact absurd h (by simp [seenFrom])

theorem qubits_canonical (op : Operation) : op.canonical.qubits = op.qubits := by
  cases op <;> rfl

/-- A gate on a coupler looks the same from its qubits in either order. -/
theorem Echoes.seenFrom_eq {x y : Operation} (h : x.Echoes y) {q : Qubit} (hq : q ∈ x.qubits) :
    y.seenFrom q = x.canonical.seenFrom q := by
  cases h with
  | same a qs => rfl
  | exchanged p r =>
    have hcanonical : (Action.gate (.standard .cz)).canonical = .gate (.standard .cz) := rfl
    have hmem : q = p ∨ q = r := by simpa [qubits] using hq
    rw [canonical, hcanonical, seenFrom_act (by simp), seenFrom_act (by simp)]
    by_cases hpr : p = r
    · rw [hpr]
    · rcases hmem with rfl | rfl
      · simp [Ne.symm hpr]
      · simp [hpr]

end Operation

/-- What the qubit takes part in, one after the other, as it looks from the qubit. -/
def track (q : Qubit) (ops : List Operation) : List Operation :=
  (ops.filter (·.actsOn q)).map (·.seenFrom q)

section Track

variable {q : Qubit} {ops xs ys : List Operation}

theorem track_append (q : Qubit) (xs ys : List Operation) :
    track q (xs ++ ys) = track q xs ++ track q ys := by
  simp [track]

theorem track_cons_of_mem {x : Operation} (hq : q ∈ x.qubits) (xs : List Operation) :
    track q (x :: xs) = x.seenFrom q :: track q xs := by
  simp [track, Operation.actsOn, hq]

theorem track_cons_of_notMem {x : Operation} (hq : q ∉ x.qubits) (xs : List Operation) :
    track q (x :: xs) = track q xs := by
  simp [track, Operation.actsOn, hq]

theorem mem_track {x : Operation} (hx : x ∈ ops) (hq : q ∈ x.qubits) :
    x.seenFrom q ∈ track q ops :=
  List.mem_map_of_mem (List.mem_filter.mpr ⟨hx, by simpa [Operation.actsOn] using hq⟩)

theorem exists_of_mem_track {y : Operation} (hy : y ∈ track q ops) :
    ∃ x ∈ ops, q ∈ x.qubits ∧ x.seenFrom q = y := by
  obtain ⟨x, hx, rfl⟩ := List.mem_map.mp hy
  obtain ⟨hmem, hq⟩ := List.mem_filter.mp hx
  exact ⟨x, hmem, by simpa [Operation.actsOn] using hq, rfl⟩

/-- A track is empty if nothing is on the qubit. -/
theorem track_eq_nil_iff : track q ops = [] ↔ ∀ x ∈ ops, q ∉ x.qubits := by
  simp [track, Operation.actsOn]

/-- Of what operations apart give, a qubit sees what its own operation gives. -/
theorem track_flatMap_of_mem {f : Operation → List Operation} {x : Operation}
    (hapart : xs.Pairwise Operation.Apart) (hf : ∀ x ∈ xs, ∀ y ∈ f x, y.qubits ⊆ x.qubits)
    (hx : x ∈ xs) (hq : q ∈ x.qubits) : track q (xs.flatMap f) = track q (f x) := by
  obtain ⟨before, after, rfl⟩ := List.append_of_mem hx
  obtain ⟨-, hafter, hbefore⟩ := List.pairwise_append.mp hapart
  have hothers : ∀ zs : List Operation, (∀ z ∈ zs, z ∈ before ++ x :: after ∧ q ∉ z.qubits) →
      track q (zs.flatMap f) = [] := by
    intro zs hzs
    rw [track_eq_nil_iff]
    intro y hy hqy
    obtain ⟨z, hz, hy⟩ := List.mem_flatMap.mp hy
    exact (hzs z hz).2 (hf z (hzs z hz).1 y hy hqy)
  have hfront := hothers before fun z hz =>
    ⟨by simp [hz], fun hqz => hbefore z hz x (by simp) hqz hq⟩
  have hback := hothers after fun z hz =>
    ⟨by simp [hz], fun hqz => (List.pairwise_cons.mp hafter).1 z hz hq hqz⟩
  rw [List.flatMap_append, List.flatMap_cons, track_append, track_append, hfront, hback]
  simp

theorem track_flatMap_of_notMem {f : Operation → List Operation}
    (hf : ∀ x ∈ xs, ∀ y ∈ f x, y.qubits ⊆ x.qubits) (hq : ∀ x ∈ xs, q ∉ x.qubits) :
    track q (xs.flatMap f) = [] := by
  rw [track_eq_nil_iff]
  intro y hy hqy
  obtain ⟨x, hx, hy⟩ := List.mem_flatMap.mp hy
  exact hq x hx (hf x hx y hy hqy)

/-- The order of operations apart cannot be seen from any qubit. -/
theorem track_flatMap_perm {f : Operation → List Operation} (hperm : xs.Perm ys)
    (hapart : xs.Pairwise Operation.Apart) (hf : ∀ x ∈ xs, ∀ y ∈ f x, y.qubits ⊆ x.qubits) :
    track q (xs.flatMap f) = track q (ys.flatMap f) := by
  have hf' : ∀ y ∈ ys, ∀ z ∈ f y, z.qubits ⊆ y.qubits :=
    fun y hy => hf y (hperm.mem_iff.mpr hy)
  by_cases h : ∃ x ∈ xs, q ∈ x.qubits
  · obtain ⟨x, hx, hq⟩ := h
    rw [track_flatMap_of_mem hapart hf hx hq, track_flatMap_of_mem
      ((hperm.pairwise_iff fun h => h.symm).mp hapart) hf' (hperm.mem_iff.mp hx) hq]
  · have hnone : ∀ x ∈ xs, q ∉ x.qubits := fun x hx hq => h ⟨x, hx, hq⟩
    rw [track_flatMap_of_notMem hf hnone,
      track_flatMap_of_notMem hf' fun y hy => hnone y (hperm.mem_iff.mpr hy)]

theorem qubits_of_mem_canonical {x y : Operation} (hy : y ∈ [x.canonical]) :
    y.qubits ⊆ x.qubits := by
  rw [List.mem_singleton.mp hy, x.qubits_canonical]
  exact fun p hp => hp

theorem track_canonical_of_mem {x : Operation} (hapart : xs.Pairwise Operation.Apart)
    (hx : x ∈ xs) (hq : q ∈ x.qubits) :
    track q (xs.map Operation.canonical) = [x.canonical.seenFrom q] := by
  rw [List.map_eq_flatMap,
    track_flatMap_of_mem hapart (fun _ _ _ hy => qubits_of_mem_canonical hy) hx hq,
    track_cons_of_mem (x.qubits_canonical ▸ hq)]
  rfl

theorem track_canonical_of_notMem (hq : ∀ x ∈ xs, q ∉ x.qubits) :
    track q (xs.map Operation.canonical) = [] := by
  rw [List.map_eq_flatMap]
  exact track_flatMap_of_notMem (fun _ _ _ hy => qubits_of_mem_canonical hy) hq

theorem track_canonical_perm (hperm : xs.Perm ys) (hapart : xs.Pairwise Operation.Apart) :
    track q (xs.map Operation.canonical) = track q (ys.map Operation.canonical) := by
  rw [List.map_eq_flatMap, List.map_eq_flatMap]
  exact track_flatMap_perm hperm hapart fun _ _ _ hy => qubits_of_mem_canonical hy

/-- What is read for operations looks as their canonical forms do. -/
theorem track_of_echoes (h : List.Forall₂ Operation.Echoes xs ys) :
    track q ys = track q (xs.map Operation.canonical) := by
  induction h with
  | nil => rfl
  | cons hecho _ ih =>
    rename_i x y xs ys _
    rw [List.map_cons]
    by_cases hq : q ∈ x.qubits
    · rw [track_cons_of_mem ((hecho.mem_qubits q).mpr hq), hecho.seenFrom_eq hq, ih,
        track_cons_of_mem (x.qubits_canonical ▸ hq)]
    · rw [track_cons_of_notMem (mt (hecho.mem_qubits q).mp hq), ih,
        track_cons_of_notMem (x.qubits_canonical ▸ hq)]

end Track

namespace Target

/-- Whether the operation shows in a script: it is not ignored and changes something. -/
def keeps (t : Target) (op : Operation) : Bool :=
  !t.policy.ignores op && decide (op.resolve? ≠ some .identity)

/-- The operations that show in a script, each in the form of its instruction. -/
def played (t : Target) (ops : List Operation) : List Operation :=
  (ops.filter t.keeps).map Operation.canonical

variable {t : Target}

theorem played_append (t : Target) (xs ys : List Operation) :
    t.played (xs ++ ys) = t.played xs ++ t.played ys := by
  simp [played]

theorem played_flatMap (t : Target) (f : Operation → List Operation) (xs : List Operation) :
    t.played (xs.flatMap f) = xs.flatMap fun x => t.played (f x) := by
  induction xs with
  | nil => rfl
  | cons x xs ih => rw [List.flatMap_cons, played_append, ih, List.flatMap_cons]

theorem played_replicate (t : Target) (n : Nat) (xs : List Operation) :
    t.played (List.replicate n xs).flatten = (List.replicate n (t.played xs)).flatten := by
  induction n with
  | zero => rfl
  | succ n ih =>
    rw [List.replicate_succ, List.replicate_succ, List.flatten_cons, List.flatten_cons,
      played_append, ih]

theorem mem_played {ops : List Operation} {y : Operation} (hy : y ∈ t.played ops) :
    ∃ x ∈ ops, t.keeps x = true ∧ x.canonical = y := by
  obtain ⟨x, hx, rfl⟩ := List.mem_map.mp hy
  exact ⟨x, (List.mem_filter.mp hx).1, (List.mem_filter.mp hx).2, rfl⟩

/-- What shows of a well-formed operation is on its qubits. -/
theorem qubits_of_mem_played {op y : Operation} (h : op.WellFormed)
    (hy : y ∈ t.played op.unrolled) : y.qubits ⊆ op.qubits := by
  obtain ⟨x, hx, -, rfl⟩ := mem_played hy
  rw [x.qubits_canonical]
  exact (h.of_mem_unrolled hx).2

/-- What shows is an entry or a measurement. -/
theorem keeps_iff {op : Operation} (h : op.WellFormed) (hnested : op.isNested = false) :
    t.keeps op = true ↔ t.isEntry op = true ∨ op.measured ≠ [] := by
  cases op with
  | act a qs =>
    by_cases ha : a = .measure
    · subst ha
      cases h with
      | act htakes =>
        have hkept : t.policy.ignores (.act .measure qs) = false :=
          t.policy.ignoresAction_eq_false (.inl rfl)
        simp [keeps, hkept, Operation.resolve?, Action.resolve?, Operation.measured, htakes.1]
    · rw [isEntry_act ha, Operation.measured_act ha, keeps, Bool.and_eq_true, Bool.not_eq_true',
        decide_eq_true_iff, IgnorePolicy.ignores_act, Operation.resolve?]
      simp
  | subcircuit c n qs => exact absurd hnested (by simp [Operation.isNested])

end Target

end PulseScript
