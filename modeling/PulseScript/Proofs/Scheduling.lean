import Mathlib
import PulseScript.Proofs.Placement

/-!
# Earliest placement is shortest

An appended operation lands just behind the last earlier operation that shares a qubit with
it. Where two lists of operations show each qubit the same operations in the same order, one
can be turned into the other by exchanging neighbours on different qubits, so both are placed
in the same moments. The moments of any schedule, one after the other, are such a list, and
appending the operations of one of its moments adds at most one moment. So no schedule is
shorter than the circuit that appending builds.
-/
namespace PulseScript
namespace Circuit

/-- The operations of the moment with the index, none if there is no such moment. -/
def operationsAt (ms : List Moment) (k : Nat) : List Operation :=
  (ms[k]?.map Moment.operations).getD []

@[simp] theorem operationsAt_nil (k : Nat) : operationsAt [] k = [] := rfl

@[simp] theorem operationsAt_cons_zero (m : Moment) (ms : List Moment) :
    operationsAt (m :: ms) 0 = m.operations := rfl

@[simp] theorem operationsAt_cons_succ (m : Moment) (ms : List Moment) (k : Nat) :
    operationsAt (m :: ms) (k + 1) = operationsAt ms k := rfl

/-- Operations one after the other, each with the index of the moment that it lands in: 0 if it
shares no qubit with an earlier operation, and otherwise one more than the largest index of an
earlier operation that it shares a qubit with. -/
inductive Lands : List (Operation × Nat) → Prop where
  | nil : Lands []
  | front {run : List (Operation × Nat)} {x : Operation} (h : Lands run)
    (hfree : ∀ e ∈ run, e.1.Apart x) : Lands (run ++ [(x, 0)])
  | behind {run : List (Operation × Nat)} {x : Operation} {k : Nat} (h : Lands run)
    (hlast : IsGreatest {n | ∃ e ∈ run, ¬ e.1.Apart x ∧ e.2 = n} k) : Lands (run ++ [(x, k + 1)])

theorem operationsAt_placed (op : Operation) {n : Nat} {ms : List Moment} (hn : n ≤ ms.length)
    (k : Nat) :
    operationsAt (placed op n ms) k = operationsAt ms k ++ if n = k then [op] else [] := by
  induction ms generalizing n k with
  | nil =>
    obtain rfl : n = 0 := by simpa using hn
    cases k <;> simp [placed]
  | cons m ms ih =>
    cases n with
    | zero => cases k <;> simp [placed]
    | succ n =>
      have hn : n ≤ ms.length := by simpa using hn
      cases k with
      | zero => simp [placed]
      | succ k => simp [placed, ih hn]

/-- The last use is the least bound on the moments that use one of the qubits. -/
theorem lastUse_le_iff (qs : List Qubit) (ms : List Moment) (n : Nat) :
    lastUse qs ms ≤ n ↔ ∀ k, ∀ x ∈ operationsAt ms k, ¬ x.qubits.Disjoint qs → k < n := by
  have huse (m : Moment) :
      qs.any m.operatesOn = true ↔ ∃ x ∈ m.operations, ¬ x.qubits.Disjoint qs := by
    simp only [List.any_eq_true, Moment.operatesOn, Operation.actsOn, List.contains_iff_mem,
      List.Disjoint, not_forall, not_false_eq_true, exists_prop]
    constructor
    · rintro ⟨q, hq, x, hx, hqx⟩
      exact ⟨x, hx, q, hqx, hq, trivial⟩
    · rintro ⟨x, hx, q, hqx, hq, -⟩
      exact ⟨q, hq, x, hx, hqx⟩
  induction ms generalizing n with
  | nil => simp [lastUse]
  | cons m ms ih =>
    rw [lastUse_cons]
    constructor
    · intro hn k x hx hshare
      cases k with
      | zero =>
        have hm := (huse m).mpr ⟨x, hx, hshare⟩
        rw [if_pos hm] at hn
        split_ifs at hn <;> omega
      | succ k =>
        have hk : k < lastUse qs ms := (ih _).mp (le_refl _) k x hx hshare
        rw [if_neg (by omega)] at hn
        omega
    · intro h
      have hrest : lastUse qs ms ≤ n - 1 :=
        (ih _).mpr fun k x hx hshare => by have := h (k + 1) x hx hshare; omega
      split_ifs with hlast hm
      · obtain ⟨x, hx, hshare⟩ := (huse m).mp hm
        exact h 0 x hx hshare
      · exact Nat.zero_le n
      · omega

/-- The operations that are appended land, and each moment holds those that landed in it, in the
order in which they were appended. -/
theorem exists_lands {ops : List Operation} (hqubits : ∀ op ∈ ops, op.qubits ≠ []) :
    ∃ run, run.map Prod.fst = ops ∧ Lands run ∧ ∀ k,
      operationsAt (ops.foldl appended []) k =
        (run.filter fun e => decide (e.2 = k)).map Prod.fst := by
  induction ops using List.reverseRecOn with
  | nil => exact ⟨[], rfl, .nil, fun k => rfl⟩
  | append_singleton ops x ih =>
    obtain ⟨run, hrun, hlands, hheld⟩ := ih fun op hop => hqubits op (by simp [hop])
    rw [List.foldl_append, List.foldl_cons, List.foldl_nil, appended,
      placement_of_ne_nil _ (hqubits x (by simp))]
    generalize ops.foldl appended [] = ms at hheld
    have hbound := lastUse_le_iff x.qubits ms
    have hmem : ∀ k y, y ∈ operationsAt ms k ↔ (y, k) ∈ run := by
      intro k y
      simp [hheld]
    have hle := lastUse_le_length x.qubits ms
    generalize lastUse x.qubits ms = n at hbound hle
    refine ⟨run ++ [(x, n)], by simp [hrun], ?_, fun k => ?_⟩
    · cases n with
      | zero =>
        refine .front hlands fun e he => ?_
        by_contra hshare
        exact absurd ((hbound 0).mp (le_refl _) e.2 e.1 ((hmem _ _).mpr he) hshare) (by omega)
      | succ k =>
        refine .behind hlands ⟨?_, ?_⟩
        · obtain ⟨j, y, hy, hshare, hj⟩ :
              ∃ j, ∃ y ∈ operationsAt ms j, ¬ y.qubits.Disjoint x.qubits ∧ k ≤ j := by
            by_contra hnone
            push Not at hnone
            exact absurd ((hbound k).mpr hnone) (by omega)
          have hjk := (hbound (k + 1)).mp (le_refl _) j y hy hshare
          exact ⟨(y, j), (hmem j y).mp hy, hshare, by omega⟩
        · rintro _ ⟨e, he, hshare, rfl⟩
          exact Nat.le_of_lt_succ
            ((hbound (k + 1)).mp (le_refl _) e.2 e.1 ((hmem _ _).mpr he) hshare)
    · rw [operationsAt_placed x hle, hheld, List.filter_append, List.map_append]
      by_cases hk : n = k <;> simp [hk]

def onQubit (q : Qubit) (ops : List Operation) : List Operation := ops.filter (·.actsOn q)

structure Schedules (ms : List Moment) (ops : List Operation) : Prop where
  same : (ms.flatMap Moment.operations).Perm ops
  apart : ∀ m ∈ ms, m.operations.Pairwise Operation.Apart
  order : ∀ q, onQubit q (ms.flatMap Moment.operations) = onQubit q ops

section OnQubit

variable {q : Qubit} {x : Operation} {ops : List Operation}

theorem onQubit_append (xs ys : List Operation) :
    onQubit q (xs ++ ys) = onQubit q xs ++ onQubit q ys := List.filter_append _ _

theorem onQubit_cons_of_mem (h : q ∈ x.qubits) : onQubit q (x :: ops) = x :: onQubit q ops :=
  List.filter_cons_of_pos (by simpa [Operation.actsOn] using h)

theorem onQubit_cons_of_notMem (h : q ∉ x.qubits) : onQubit q (x :: ops) = onQubit q ops :=
  List.filter_cons_of_neg (by simpa [Operation.actsOn] using h)

theorem onQubit_eq_nil_iff : onQubit q ops = [] ↔ ∀ op ∈ ops, q ∉ op.qubits := by
  simp [onQubit, Operation.actsOn]

/-- What comes first on each of its qubits may come first of all. -/
theorem exists_front_of_onQubit (hx : x.qubits ≠ [])
    (h : ∀ q ∈ x.qubits, ∃ rest, onQubit q ops = x :: rest) :
    ∃ front back, ops = front ++ x :: back ∧ ∀ y ∈ front, y.Apart x := by
  obtain ⟨q, hq⟩ := List.exists_mem_of_ne_nil _ hx
  obtain ⟨rest, hrest⟩ := h q hq
  have hmem : x ∈ ops := List.mem_of_mem_filter (hrest ▸ List.mem_cons_self)
  obtain ⟨front, back, rfl, hfirst⟩ := List.eq_append_cons_of_mem hmem
  refine ⟨front, back, rfl, fun y hy q hqy hqx => ?_⟩
  -- the first operation on a shared qubit would be one before `x`
  obtain ⟨rest, hrest⟩ := h q hqx
  have hne : onQubit q front ≠ [] := mt onQubit_eq_nil_iff.mp (by simpa using ⟨y, hy, hqy⟩)
  obtain ⟨z, zs, hz⟩ := List.exists_cons_of_ne_nil hne
  rw [onQubit_append, hz, List.cons_append, List.cons.injEq] at hrest
  exact hfirst (hrest.1 ▸ List.mem_of_mem_filter (hz ▸ List.mem_cons_self))

end OnQubit

/-- Operations are placed in the same moments if each qubit meets the same operations in the
same order. -/
theorem sameMoments_of_onQubit {xs ys : List Operation} (hxs : ∀ op ∈ xs, op.qubits ≠ [])
    (hys : ∀ op ∈ ys, op.qubits ≠ []) (h : ∀ q, onQubit q xs = onQubit q ys) (ms : List Moment) :
    SameMoments (ys.foldl appended ms) (xs.foldl appended ms) := by
  induction xs generalizing ys ms with
  | nil =>
    have hnil : ys = [] := by
      rw [List.eq_nil_iff_forall_not_mem]
      intro y hy
      obtain ⟨q, hq⟩ := List.exists_mem_of_ne_nil _ (hys y hy)
      exact onQubit_eq_nil_iff.mp (h q).symm y hy hq
    subst hnil
    exact .refl _
  | cons x xs ih =>
    obtain ⟨hx, hxs⟩ := List.forall_mem_cons.mp hxs
    obtain ⟨front, back, rfl, hapart⟩ := exists_front_of_onQubit hx fun q hq =>
      ⟨_, (h q).symm.trans (onQubit_cons_of_mem hq)⟩
    have hrest : ∀ op ∈ front ++ back, op.qubits ≠ [] := fun op hop => by
      refine hys op ?_
      rcases List.mem_append.mp hop with hop | hop <;> simp [hop]
    have hsame : ∀ q, onQubit q xs = onQubit q (front ++ back) := by
      intro q
      have hq := h q
      rw [onQubit_append] at hq ⊢
      by_cases hqx : q ∈ x.qubits
      · have hfront : onQubit q front = [] :=
          onQubit_eq_nil_iff.mpr fun y hy hqy => hapart y hy hqy hqx
        rw [onQubit_cons_of_mem hqx, onQubit_cons_of_mem hqx, hfront, List.nil_append,
          List.cons.injEq] at hq
        rw [hfront, List.nil_append, hq.2]
      · rwa [onQubit_cons_of_notMem hqx, onQubit_cons_of_notMem hqx] at hq
    have hmoved : SameMoments ((front ++ x :: back).foldl appended ms)
        ((front ++ back).foldl appended (appended ms x)) := by
      have := (foldl_appended_front hx (fun y hy => hrest y (List.mem_append_left back hy)) hapart
        ms).foldl_appended fun y hy => hrest y (List.mem_append_right front hy)
      simpa [List.foldl_append] using this
    exact hmoved.trans (ih hxs hrest hsame (appended ms x))

theorem length_placed_le (op : Operation) (n : Nat) (ms : List Moment) :
    (placed op n ms).length ≤ max ms.length (n + 1) := by
  induction ms generalizing n with
  | nil => simp [placed]
  | cons m ms ih =>
    cases n with
    | zero => simp [placed]
    | succ n =>
      have := ih n
      simp only [placed, List.length_cons]
      omega

/-- Operations on different qubits, and on none that is used from a moment on, go no further than
that moment. -/
theorem length_foldl_appended_le {ops : List Operation} (hqubits : ∀ op ∈ ops, op.qubits ≠ [])
    (hapart : ops.Pairwise Operation.Apart) {ms : List Moment} {n : Nat}
    (hlength : ms.length ≤ n + 1)
    (hfree : ∀ op ∈ ops, lastUse op.qubits ms ≤ n) : (ops.foldl appended ms).length ≤ n + 1 := by
  induction ops generalizing ms with
  | nil => exact hlength
  | cons op ops ih =>
    obtain ⟨hop, hqubits⟩ := List.forall_mem_cons.mp hqubits
    obtain ⟨hothers, hapart⟩ := List.pairwise_cons.mp hapart
    obtain ⟨hn, hfree⟩ := List.forall_mem_cons.mp hfree
    simp only [List.foldl_cons, appended, placement_of_ne_nil _ hop]
    refine ih hqubits hapart ?_ fun y hy => ?_
    · have := length_placed_le op (lastUse op.qubits ms) ms
      omega
    · rw [lastUse_placed (hothers y hy)]
      exact hfree y hy

/-- Appending the operations of a moment adds at most one moment. -/
theorem length_foldl_appended_flatMap_le {ns : List Moment}
    (hqubits : ∀ m ∈ ns, ∀ op ∈ m.operations, op.qubits ≠ [])
    (hapart : ∀ m ∈ ns, m.operations.Pairwise Operation.Apart) (ms : List Moment) :
    ((ns.flatMap Moment.operations).foldl appended ms).length ≤ ms.length + ns.length := by
  induction ns generalizing ms with
  | nil => simp
  | cons n ns ih =>
    obtain ⟨hn, hqubits⟩ := List.forall_mem_cons.mp hqubits
    obtain ⟨hapartn, hapart⟩ := List.forall_mem_cons.mp hapart
    rw [List.flatMap_cons, List.foldl_append, List.length_cons]
    have hmoment : (n.operations.foldl appended ms).length ≤ ms.length + 1 :=
      length_foldl_appended_le hn hapartn (Nat.le_succ _) fun op _ => lastUse_le_length _ ms
    have hrest := ih hqubits hapart (n.operations.foldl appended ms)
    omega

/-- No schedule has fewer moments than the circuit that appending builds. -/
theorem Schedules.length_foldl_appended_le {ms : List Moment} {ops : List Operation}
    (h : Schedules ms ops) (hqubits : ∀ op ∈ ops, op.qubits ≠ []) :
    (ops.foldl appended []).length ≤ ms.length := by
  have hms : ∀ op ∈ ms.flatMap Moment.operations, op.qubits ≠ [] :=
    fun op hop => hqubits op (h.same.mem_iff.mp hop)
  rw [← (sameMoments_of_onQubit hqubits hms (fun q => (h.order q).symm) []).length_eq]
  simpa using length_foldl_appended_flatMap_le
    (fun m hm op hop => hms op (List.mem_flatMap.mpr ⟨m, hm, hop⟩)) h.apart []

/-- Where no moment from an index on uses a qubit of the operation, adding it there puts it behind
all operations on that qubit. -/
theorem onQubit_placed {op : Operation} {n : Nat} {ms : List Moment}
    (hn : lastUse op.qubits ms ≤ n) (q : Qubit) :
    onQubit q ((placed op n ms).flatMap Moment.operations) =
      onQubit q (ms.flatMap Moment.operations) ++ onQubit q [op] := by
  induction ms generalizing n with
  | nil => simp [placed, onQubit]
  | cons m ms ih =>
    cases n with
    | zero =>
      simp only [placed, List.flatMap_cons, onQubit_append, List.append_assoc,
        List.append_cancel_left_eq]
      by_cases hq : q ∈ op.qubits
      · have hrest : onQubit q (ms.flatMap Moment.operations) = [] := by
          rw [onQubit_eq_nil_iff]
          intro x hx hqx
          obtain ⟨m', hm', hx⟩ := List.mem_flatMap.mp hx
          obtain ⟨k, hk⟩ := List.getElem?_of_mem hm'
          have hunused := (lastUse_le_iff op.qubits (m :: ms) 0).mp hn (k + 1) x
            (by simpa [operationsAt, hk] using hx) fun hdisjoint => hdisjoint hqx hq
          omega
        rw [hrest, List.append_nil, List.nil_append]
      · have hop : onQubit q [op] = [] := onQubit_eq_nil_iff.mpr (by simpa using hq)
        rw [hop, List.append_nil, List.nil_append]
    | succ n =>
      have hn : lastUse op.qubits ms ≤ n := by
        rw [lastUse_cons] at hn
        split_ifs at hn <;> omega
      simp only [placed, List.flatMap_cons, onQubit_append, ih hn, List.append_assoc]

/-- An appended operation comes behind all others on its qubits. -/
theorem onQubit_appended (ms : List Moment) (op : Operation) (q : Qubit) :
    onQubit q ((appended ms op).flatMap Moment.operations) =
      onQubit q (ms.flatMap Moment.operations) ++ onQubit q [op] :=
  onQubit_placed (lastUse_le_placement ⟨ms⟩ op.qubits) q

theorem onQubit_foldl_appended (ops : List Operation) (ms : List Moment) (q : Qubit) :
    onQubit q ((ops.foldl appended ms).flatMap Moment.operations) =
      onQubit q (ms.flatMap Moment.operations) ++ onQubit q ops := by
  induction ops generalizing ms with
  | nil => simp [onQubit]
  | cons op ops ih =>
    rw [List.foldl_cons, ih, onQubit_appended, List.append_assoc, ← onQubit_append,
      List.singleton_append]

/-- Appending leaves no moment empty. -/
theorem ne_nil_appended {ms : List Moment} (h : ∀ m ∈ ms, m.operations ≠ []) (op : Operation) :
    ∀ m ∈ appended ms op, m.operations ≠ [] :=
  forall_mem_placed h (by simp) (by simp)

/-- What appending keeps holds after all operations. -/
theorem forall_mem_foldl_appended {P : Moment → Prop}
    (hstep : ∀ ms, (∀ m ∈ ms, P m) → ∀ op, ∀ m ∈ appended ms op, P m) (ops : List Operation)
    {ms : List Moment} (h : ∀ m ∈ ms, P m) : ∀ m ∈ ops.foldl appended ms, P m := by
  induction ops generalizing ms with
  | nil => exact h
  | cons op ops ih => exact ih (hstep ms h op)

theorem schedules_foldl_appended (ops : List Operation) :
    Schedules (ops.foldl appended []) ops where
  same := by simpa using operations_foldl_appended ops []
  apart := forall_mem_foldl_appended (fun _ => apart_appended) ops (by simp)
  order q := by simpa [onQubit] using onQubit_foldl_appended ops [] q

/-- Operations on one qubit or more, appended one after the other: each lands behind the last
earlier one that shares a qubit with it, or in front, and each moment holds what landed in it.
No moment is empty. The circuit is a schedule of the operations, and no schedule of them has
fewer moments. -/
theorem ofOperations_shortest (ops : List Operation) (hqubits : ∀ op ∈ ops, op.qubits ≠ []) :
    ∃ (c : Circuit) (run : List (Operation × Nat)), ofOperations ops = .ok c ∧
      (run.map Prod.fst = ops ∧ Lands run ∧
        ∀ k, operationsAt c.moments k = (run.filter fun e => decide (e.2 = k)).map Prod.fst) ∧
      (∀ m ∈ c.moments, m.operations ≠ []) ∧
      Schedules c.moments ops ∧ ∀ ms, Schedules ms ops → c.numMoments ≤ ms.length := by
  obtain ⟨run, hrun⟩ := exists_lands hqubits
  exact ⟨_, run, ofOperations_eq_ok ops, hrun,
    forall_mem_foldl_appended (fun _ => ne_nil_appended) ops (by simp),
    schedules_foldl_appended ops, fun _ h => h.length_foldl_appended_le hqubits⟩

/-- Two gates on one qubit, then the coupling of it with another, which waits for both. -/
theorem ofOperations_shortest_couplingLast :
    let ops : List Operation :=
      [.x ⟨0⟩, .y ⟨1⟩, .x ⟨0⟩, .act (.gate (.standard .cz)) [⟨0⟩, ⟨1⟩]]
    ∃ c : Circuit, ofOperations ops = .ok c ∧ c.numMoments = 3 ∧
      ∀ ms, Schedules ms ops → 3 ≤ ms.length := by
  intro ops
  obtain ⟨c, run, hc, -, -, -, hleast⟩ := ofOperations_shortest ops (by decide)
  have hthree : c.numMoments = 3 := by
    obtain rfl : _ = c := Except.ok.inj ((ofOperations_eq_ok ops).symm.trans hc)
    decide
  exact ⟨c, hc, hthree, fun ms hms => hthree ▸ hleast ms hms⟩

end Circuit
end PulseScript
