import Mathlib
import PulseScript.Proofs.Equality

/-!
# Where appended operations go

An operation goes behind the last moment that uses one of its qubits, so the moment it joins
does not use them and the append succeeds. Operations on different qubits do not see each
other: whichever is appended first, each goes to the same moment, and only their order in a
shared moment differs. So a circuit depends on the order of appended operations only where
they share a qubit.
-/
namespace PulseScript
namespace Circuit

/-- The moments with an operation added at an index, or in a new moment behind the last. -/
def placed (op : Operation) : Nat → List Moment → List Moment
  | _, [] => [⟨[op]⟩]
  | 0, m :: ms => ⟨m.operations ++ [op]⟩ :: ms
  | n + 1, m :: ms => m :: placed op n ms

def appended (ms : List Moment) (op : Operation) : List Moment :=
  placed op ((⟨ms⟩ : Circuit).placement op.qubits) ms

theorem lastUse_cons (qs : List Qubit) (m : Moment) (ms : List Moment) :
    lastUse qs (m :: ms) =
      if lastUse qs ms = 0 then (if qs.any m.operatesOn then 1 else 0) else lastUse qs ms + 1 := by
  rw [lastUse]
  cases lastUse qs ms <;> simp

theorem lastUse_le_length (qs : List Qubit) (ms : List Moment) : lastUse qs ms ≤ ms.length := by
  induction ms with
  | nil => exact le_refl _
  | cons m ms ih =>
    rw [lastUse_cons, List.length_cons]
    split_ifs <;> omega

/-- No moment from the last use on uses one of the qubits. -/
theorem not_operatesOn_of_lastUse_le {qs : List Qubit} {ms : List Moment} {n : Nat} {m : Moment}
    (hn : lastUse qs ms ≤ n) (hm : ms[n]? = some m) : qs.any m.operatesOn = false := by
  induction ms generalizing n with
  | nil => exact absurd hm (by simp)
  | cons k ms ih =>
    rw [lastUse_cons] at hn
    by_cases hlast : lastUse qs ms = 0
    · rw [if_pos hlast] at hn
      cases n with
      | zero =>
        obtain rfl : k = m := by simpa using hm
        cases huse : qs.any k.operatesOn
        · rfl
        · exact absurd hn (by simp [huse])
      | succ n =>
        have hm : ms[n]? = some m := by simpa using hm
        exact ih (by omega) hm
    · rw [if_neg hlast] at hn
      cases n with
      | zero => exact absurd hn (by omega)
      | succ n =>
        have hm : ms[n]? = some m := by simpa using hm
        exact ih (by omega) hm

theorem placement_of_ne_nil (c : Circuit) {qs : List Qubit} (h : qs ≠ []) :
    c.placement qs = lastUse qs c.moments := by
  rw [placement]
  cases lastUse qs c.moments <;> simp [h]

/-- An operation goes behind the last moment that uses one of its qubits. -/
theorem lastUse_le_placement (c : Circuit) (qs : List Qubit) :
    lastUse qs c.moments ≤ c.placement qs := by
  rw [placement]
  cases lastUse qs c.moments with
  | zero => exact Nat.zero_le _
  | succ n => exact le_refl _

/-- The moment that an operation goes to does not use its qubits. -/
theorem apart_of_placement {c : Circuit} {op : Operation} {m : Moment}
    (hm : c.moments[c.placement op.qubits]? = some m) : ∀ x ∈ m.operations, x.Apart op := by
  intro x hx q hqx hq
  -- an operation without qubits goes to the last moment, but shares no qubit with any other
  have hne : op.qubits ≠ [] := List.ne_nil_of_mem hq
  rw [placement_of_ne_nil c hne] at hm
  have hfree := not_operatesOn_of_lastUse_le (le_refl _) hm
  rw [List.any_eq_false] at hfree
  exact ((Moment.operatesOn_eq_false_iff m q).mp (by simpa using hfree q hq)) x hx hqx

theorem pushAt_eq_ok {op : Operation} {n : Nat} {ms : List Moment}
    (h : ∀ m, ms[n]? = some m → ∀ x ∈ m.operations, x.Apart op) :
    pushAt op n ms = .ok (placed op n ms) := by
  induction ms generalizing n with
  | nil =>
    have hpush : Moment.empty.push op = .ok ⟨[op]⟩ :=
      (Moment.push_eq_ok_iff _ _ _).mpr ⟨by simp [Moment.empty], rfl⟩
    rw [pushAt, hpush, placed]
    rfl
  | cons m ms ih =>
    cases n with
    | zero =>
      have hpush : m.push op = .ok ⟨m.operations ++ [op]⟩ :=
        (Moment.push_eq_ok_iff _ _ _).mpr ⟨h m rfl, rfl⟩
      rw [pushAt, hpush]
      rfl
    | succ n =>
      rw [pushAt, ih fun k hk => h k (by simpa using hk)]
      rfl

/-- Appending never fails. -/
theorem append_eq_ok (c : Circuit) (op : Operation) :
    c.append op = .ok ⟨appended c.moments op⟩ := by
  rw [append, pushAt_eq_ok fun m hm => apart_of_placement hm]
  rfl

theorem foldlM_append_eq_ok (ops : List Operation) (c : Circuit) :
    ops.foldlM append c = .ok ⟨ops.foldl appended c.moments⟩ := by
  induction ops generalizing c with
  | nil => obtain ⟨ms⟩ := c; rfl
  | cons op ops ih =>
    rw [List.foldlM_cons, append_eq_ok]
    exact ih ⟨appended c.moments op⟩

theorem ofOperations_eq_ok (ops : List Operation) :
    ofOperations ops = .ok ⟨ops.foldl appended []⟩ :=
  foldlM_append_eq_ok ops empty

/-- What is appended is added to the operations that are there. -/
theorem operations_placed (op : Operation) (n : Nat) (ms : List Moment) :
    ((placed op n ms).flatMap Moment.operations).Perm (op :: ms.flatMap Moment.operations) := by
  induction ms generalizing n with
  | nil => simp [placed]
  | cons m ms ih =>
    cases n with
    | zero =>
      simp only [placed, List.flatMap_cons, List.append_assoc, List.singleton_append]
      exact List.perm_middle
    | succ n =>
      simp only [placed, List.flatMap_cons]
      exact ((ih n).append_left m.operations).trans List.perm_middle

theorem operations_foldl_appended (ops : List Operation) (ms : List Moment) :
    ((ops.foldl appended ms).flatMap Moment.operations).Perm
      (ops ++ ms.flatMap Moment.operations) := by
  induction ops generalizing ms with
  | nil => exact .refl _
  | cons op ops ih =>
    refine (ih (appended ms op)).trans ?_
    exact ((operations_placed op _ ms).append_left ops).trans List.perm_middle

/-- What holds of the moments and of the one that takes the operation holds of all after it. -/
theorem forall_mem_placed {P : Moment → Prop} {op : Operation} {n : Nat} {ms : List Moment}
    (h : ∀ m ∈ ms, P m) (hnew : P ⟨[op]⟩)
    (htaken : ∀ m, ms[n]? = some m → P ⟨m.operations ++ [op]⟩) : ∀ m ∈ placed op n ms, P m := by
  induction ms generalizing n with
  | nil => simpa [placed] using hnew
  | cons m ms ih =>
    obtain ⟨hm, hms⟩ := List.forall_mem_cons.mp h
    cases n with
    | zero => exact List.forall_mem_cons.mpr ⟨htaken m rfl, hms⟩
    | succ n => exact List.forall_mem_cons.mpr ⟨hm, ih hms htaken⟩

/-- Appending keeps the operations of every moment apart. -/
theorem apart_appended {ms : List Moment} (h : ∀ m ∈ ms, m.operations.Pairwise Operation.Apart)
    (op : Operation) : ∀ m ∈ appended ms op, m.operations.Pairwise Operation.Apart := by
  refine forall_mem_placed h (List.pairwise_singleton _ _) fun m hm => ?_
  have hfree := apart_of_placement (c := ⟨ms⟩) hm
  exact List.pairwise_append.mpr
    ⟨h m (List.mem_of_getElem? hm), List.pairwise_singleton _ _, by simpa using hfree⟩

abbrev SameMoments : List Moment → List Moment → Prop :=
  List.Forall₂ fun m n => m.operations.Perm n.operations

namespace SameMoments

variable {ms ns ks : List Moment}

theorem refl (ms : List Moment) : SameMoments ms ms := List.forall₂_same.mpr fun _ _ => .refl _

theorem symm (h : SameMoments ms ns) : SameMoments ns ms :=
  List.Forall₂.flip (h.imp fun _ _ hmn => hmn.symm)

theorem trans (h : SameMoments ms ns) (h' : SameMoments ns ks) : SameMoments ms ks := by
  induction h generalizing ks with
  | nil => exact h'
  | cons hmn _ ih =>
    cases h' with
    | cons hnk hrest => exact .cons (hmn.trans hnk) (ih hrest)

theorem placed (h : SameMoments ms ns) (op : Operation) (n : Nat) :
    SameMoments (placed op n ms) (placed op n ns) := by
  induction h generalizing n with
  | nil => exact refl _
  | cons hmn hrest ih =>
    cases n with
    | zero => exact .cons (hmn.append_right [op]) hrest
    | succ n => exact .cons hmn (ih n)

theorem lastUse (h : SameMoments ms ns) (qs : List Qubit) : lastUse qs ms = lastUse qs ns := by
  induction h with
  | nil => rfl
  | @cons m n ms ns hmn _ ih =>
    have huse : m.operatesOn = n.operatesOn := by
      funext q
      exact hmn.any_eq
    rw [lastUse_cons, lastUse_cons, ih, huse]

/-- Without NaN such circuits are equal. -/
theorem beq (h : SameMoments ms ns) (hnan : ∀ m ∈ ms, .nan ∉ m.numbers) :
    ((⟨ms⟩ : Circuit) == ⟨ns⟩) = true := by
  refine (beq_iff ⟨ms⟩ ⟨ns⟩).mpr (List.forall₂_iff_get.mpr ⟨h.length_eq, fun i hi hj => ?_⟩)
  exact Moment.beq_of_exchanged (hnan _ (List.get_mem ms ⟨i, hi⟩)) (h.get hi hj)
    (List.forall₂_same.mpr fun x _ => .same x)

end SameMoments

/-- An operation on other qubits does not change the last use. -/
theorem lastUse_placed {x : Operation} {qs : List Qubit} (h : x.qubits.Disjoint qs) (n : Nat)
    (ms : List Moment) : lastUse qs (placed x n ms) = lastUse qs ms := by
  have hunused (m : Moment) :
      qs.any (⟨m.operations ++ [x]⟩ : Moment).operatesOn = qs.any m.operatesOn := by
    rw [Bool.eq_iff_iff, List.any_eq_true, List.any_eq_true]
    refine exists_congr fun q => and_congr_right fun hq => ?_
    have hx : x.actsOn q = false := by simpa [Operation.actsOn] using fun hm => h hm hq
    simp [Moment.operatesOn, hx]
  induction ms generalizing n with
  | nil =>
    rw [placed, lastUse_cons, show [x] = Moment.empty.operations ++ [x] from rfl, hunused]
    simp [lastUse, Moment.operatesOn, Moment.empty]
  | cons m ms ih =>
    cases n with
    | zero => rw [placed, lastUse_cons, lastUse_cons, hunused]
    | succ n => rw [placed, lastUse_cons, lastUse_cons, ih]

/-- Operations may be placed in either order. -/
theorem placed_comm (x y : Operation) {k l : Nat} {ms : List Moment} (hk : k ≤ ms.length)
    (hl : l ≤ ms.length) :
    SameMoments (placed y l (placed x k ms)) (placed x k (placed y l ms)) := by
  induction ms generalizing k l with
  | nil =>
    obtain rfl : k = 0 := by simpa using hk
    obtain rfl : l = 0 := by simpa using hl
    exact .cons (.swap y x []) .nil
  | cons m ms ih =>
    cases k with
    | zero =>
      cases l with
      | zero =>
        refine .cons ?_ (SameMoments.refl ms)
        simp only [List.append_assoc]
        exact (List.Perm.swap y x []).append_left m.operations
      | succ l => exact .refl _
    | succ k =>
      cases l with
      | zero => exact .refl _
      | succ l => exact .cons (.refl _) (ih (by simpa using hk) (by simpa using hl))

/-- Operations on different qubits may be appended in either order. -/
theorem appended_comm {x y : Operation} (hx : x.qubits ≠ []) (hy : y.qubits ≠ [])
    (hapart : x.Apart y) (ms : List Moment) :
    SameMoments (appended (appended ms x) y) (appended (appended ms y) x) := by
  simp only [appended, placement_of_ne_nil _ hx, placement_of_ne_nil _ hy, lastUse_placed hapart,
    lastUse_placed hapart.symm]
  exact placed_comm x y (lastUse_le_length _ ms) (lastUse_le_length _ ms)

theorem SameMoments.foldl_appended {ms ns : List Moment} (h : SameMoments ms ns)
    {ops : List Operation} (hops : ∀ op ∈ ops, op.qubits ≠ []) :
    SameMoments (ops.foldl appended ms) (ops.foldl appended ns) := by
  induction ops generalizing ms ns with
  | nil => exact h
  | cons op ops ih =>
    obtain ⟨hop, hops⟩ := List.forall_mem_cons.mp hops
    refine ih ?_ hops
    simp only [appended, placement_of_ne_nil _ hop, h.lastUse]
    exact h.placed op _

/-- An operation may be appended before others on different qubits instead of behind them. -/
theorem foldl_appended_front {x : Operation} {front : List Operation} (hx : x.qubits ≠ [])
    (hfront : ∀ y ∈ front, y.qubits ≠ []) (hapart : ∀ y ∈ front, y.Apart x) (ms : List Moment) :
    SameMoments ((front ++ [x]).foldl appended ms) ((x :: front).foldl appended ms) := by
  induction front generalizing ms with
  | nil => exact .refl _
  | cons y front ih =>
    obtain ⟨hy, hfront⟩ := List.forall_mem_cons.mp hfront
    obtain ⟨hyx, hapart⟩ := List.forall_mem_cons.mp hapart
    refine (ih hfront hapart (appended ms y)).trans ?_
    exact (appended_comm hy hx hyx ms).foldl_appended hfront

/-- Operations may be appended in another order if those that come in the other order than
before are on different qubits. -/
theorem sameMoments_of_reordered {ι : Type} [LinearOrder ι] (ops : ι → Operation)
    (hqubits : ∀ i, (ops i).qubits ≠ []) {order sorted : List ι} (hsorted : sorted.Pairwise (· < ·))
    (hperm : order.Perm sorted) (hapart : order.Pairwise fun i j => j < i → (ops i).Apart (ops j))
    (ms : List Moment) :
    SameMoments ((order.map ops).foldl appended ms) ((sorted.map ops).foldl appended ms) := by
  have hne (is : List ι) : ∀ op ∈ is.map ops, op.qubits ≠ [] :=
    List.forall_mem_map.mpr fun i _ => hqubits i
  induction sorted generalizing order ms with
  | nil =>
    obtain rfl := hperm.eq_nil
    exact .refl _
  | cons i sorted ih =>
    obtain ⟨hleast, hsorted⟩ := List.pairwise_cons.mp hsorted
    obtain ⟨front, back, rfl⟩ := List.append_of_mem (hperm.mem_iff.mpr List.mem_cons_self)
    have hrest : (front ++ back).Perm sorted :=
      (List.perm_middle.symm.trans hperm).cons_inv
    obtain ⟨hfront, hback, hcross⟩ := List.pairwise_append.mp hapart
    have hbefore : ∀ j ∈ front, (ops j).Apart (ops i) := fun j hj =>
      hcross j hj i List.mem_cons_self (hleast j (hrest.mem_iff.mp (List.mem_append_left back hj)))
    have hkept : (front ++ back).Pairwise fun i j => j < i → (ops i).Apart (ops j) :=
      List.pairwise_append.mpr ⟨hfront, (List.pairwise_cons.mp hback).2, fun j hj k hk =>
        hcross j hj k (List.mem_cons_of_mem i hk)⟩
    -- the least position goes to the front, and the others are reordered behind it
    have hmoved : SameMoments (((front ++ i :: back).map ops).foldl appended ms)
        (((front ++ back).map ops).foldl appended (appended ms (ops i))) := by
      have := (foldl_appended_front (hqubits i) (hne front) (List.forall_mem_map.mpr hbefore) ms
        ).foldl_appended (hne back)
      simpa [List.foldl_append] using this
    exact hmoved.trans (ih hsorted hrest hkept (appended ms (ops i)))

/-- Operations may be appended in two orders that agree wherever operations share a qubit. -/
theorem sameMoments_of_equiv {ops ops' : List Operation} (hqubits : ∀ op ∈ ops, op.qubits ≠ [])
    (σ : Fin ops.length ≃ Fin ops'.length) (hσ : ∀ i, ops'[σ i] = ops[i])
    (horder : ∀ i j, i < j → ¬ ops[i].Apart ops[j] → σ i < σ j) (ms : List Moment) :
    SameMoments (ops'.foldl appended ms) (ops.foldl appended ms) := by
  let order : List (Fin ops.length) := (List.finRange ops'.length).map σ.symm
  have hops' : order.map ops.get = ops' := by
    refine List.ext_get (by simp [order]) fun k hk hk' => ?_
    simpa [order] using (hσ (σ.symm ⟨k, hk'⟩)).symm
  have hperm : order.Perm (List.finRange ops.length) := by
    refine (List.perm_ext_iff_of_nodup ?_ (List.nodup_finRange _)).mpr fun i => ?_
    · exact (List.nodup_finRange _).map σ.symm.injective
    · simp only [order, List.mem_map, List.mem_finRange, true_and, iff_true]
      exact σ.symm.surjective i
  have hapart : order.Pairwise fun i j => j < i → ops[i].Apart ops[j] := by
    refine List.pairwise_map.mpr ((List.pairwise_lt_finRange _).imp fun {k l} hkl hlt => ?_)
    by_contra hshare
    have hlk : l < k := by
      simpa only [Equiv.apply_symm_apply] using horder _ _ hlt fun h => hshare h.symm
    exact absurd hkl hlk.asymm
  have hsame := sameMoments_of_reordered ops.get (fun i => hqubits _ (List.get_mem ops i))
    (List.pairwise_lt_finRange _) hperm hapart ms
  rwa [hops', List.map_get_finRange] at hsame

/-- Appending the same operations in two orders that agree wherever operations share a qubit
gives equal circuits, with the same operations in each moment. -/
theorem ofOperations_beq_of_reordered {ops ops' : List Operation}
    (hqubits : ∀ op ∈ ops, op.qubits ≠ []) (hnan : ∀ op ∈ ops, .nan ∉ op.numbers)
    (σ : Fin ops.length ≃ Fin ops'.length) (hσ : ∀ i, ops'[σ i] = ops[i])
    (horder : ∀ i j, i < j → ¬ ops[i].Apart ops[j] → σ i < σ j) :
    ∃ c d : Circuit, ofOperations ops = .ok c ∧ ofOperations ops' = .ok d ∧ (c == d) = true ∧
      SameMoments c.moments d.moments := by
  have hsame := (sameMoments_of_equiv hqubits σ hσ horder []).symm
  have hperm : ((ops.foldl appended []).flatMap Moment.operations).Perm ops := by
    simpa using operations_foldl_appended ops []
  have hfree : ∀ m ∈ ops.foldl appended [], .nan ∉ m.numbers := by
    refine fun m hm => Moment.nan_notMem_numbers.mpr fun op hop => hnan op ?_
    exact hperm.mem_iff.mp (List.mem_flatMap.mpr ⟨m, hm, hop⟩)
  exact ⟨_, _, ofOperations_eq_ok ops, ofOperations_eq_ok ops', hsame.beq hfree, hsame⟩

/-- A gate on the second qubit before the one on the first, and both before their coupling. -/
theorem ofOperations_beq_swappedPair :
    let ops : List Operation := [.x ⟨0⟩, .y ⟨1⟩, .act (.gate (.standard .cz)) [⟨0⟩, ⟨1⟩]]
    let ops' : List Operation := [.y ⟨1⟩, .x ⟨0⟩, .act (.gate (.standard .cz)) [⟨0⟩, ⟨1⟩]]
    ∃ c d : Circuit, ofOperations ops = .ok c ∧ ofOperations ops' = .ok d ∧ (c == d) = true ∧
      SameMoments c.moments d.moments := by
  intro ops ops'
  have hqubits : ∀ op ∈ ops, op.qubits ≠ [] := by decide
  have hnan : ∀ op ∈ ops, .nan ∉ op.numbers := by
    simp [ops, Operation.x, Operation.y, Operation.single, Operation.numbers, Action.numbers,
      Gate.numbers, StandardGate.angles]
  let σ : Fin ops.length ≃ Fin ops'.length := Equiv.swap (0 : Fin 3) 1
  have hσ : ∀ i, ops'[σ i] = ops[i] := by
    intro i
    fin_cases i <;> rfl
  have horder : ∀ i j, i < j → ¬ ops[i].Apart ops[j] → σ i < σ j := by
    unfold Operation.Apart List.Disjoint
    decide
  exact ofOperations_beq_of_reordered hqubits hnan σ hσ horder

end Circuit
end PulseScript
