import Mathlib
import PulseScript.Proofs.Calls
import PulseScript.Proofs.Scheduling

/-!
# What an append adds

An operation that is appended joins one moment as its last operation, or opens a moment behind
the last. Everything else stays as it was, and the circuit may be any: its moments may be empty,
and operations in one of them may share a qubit. No moment behind the one that the operation joins
uses one of its qubits, so on each of them it comes last. Calls are appends, except that operands
may be refused, and that is before the circuit is touched.
-/
namespace PulseScript
namespace Circuit

/-- The moments before and after an operation was added: it stands behind the others in one of
them, or alone in a new one at the end. -/
inductive Gains (op : Operation) : List Moment → List Moment → Prop where
  | joins (front : List Moment) (m : Moment) (back : List Moment) :
    Gains op (front ++ m :: back) (front ++ ⟨m.operations ++ [op]⟩ :: back)
  | opens (ms : List Moment) : Gains op ms (ms ++ [⟨[op]⟩])

theorem Gains.cons {op : Operation} {ms ns : List Moment} (h : Gains op ms ns) (m : Moment) :
    Gains op (m :: ms) (m :: ns) := by
  cases h with
  | joins front k back => exact .joins (m :: front) k back
  | opens => exact .opens (m :: ms)

/-- To place an operation is to add it, if the index is that of a moment or of a new one. -/
theorem gains_placed (op : Operation) {n : Nat} {ms : List Moment} (hn : n ≤ ms.length) :
    Gains op ms (placed op n ms) := by
  induction ms generalizing n with
  | nil =>
    rw [placed]
    exact .opens []
  | cons m ms ih =>
    cases n with
    | zero => exact .joins [] m ms
    | succ n => exact (ih (by simpa using hn)).cons m

theorem gains_appended (op : Operation) (ms : List Moment) : Gains op ms (appended ms op) :=
  gains_placed op (placement_le_length ⟨ms⟩ op.qubits)

namespace Call

/-- Every call gives its operation to the circuit, unless the operands are refused. -/
theorem result_eq (k : Call) (c : Circuit) : k.result c = k.operation >>= c.append := by
  cases k <;> rfl

/-- A call adds its operation, or is refused and leaves the circuit as it was. -/
theorem gains_or_refused (k : Call) (c : Circuit) :
    (∃ op d, k.operation = .ok op ∧ k.result c = .ok d ∧ k.inPlace c = (.ok (), d) ∧
      Gains op c.moments d.moments) ∨
    ∃ e, k.operation = .error e ∧ k.result c = .error e ∧ k.inPlace c = (.error e, c) := by
  rw [inPlace_eq, result_eq]
  cases hop : k.operation with
  | error e => exact .inr ⟨e, rfl, rfl, rfl⟩
  | ok op =>
    have happend : (Except.ok op >>= c.append) = .ok ⟨appended c.moments op⟩ := append_eq_ok c op
    refine .inl ⟨op, _, rfl, happend, ?_, gains_appended op c.moments⟩
    rw [happend]
    rfl

/-- A gate on a coupler is refused only for a qubit given twice. -/
theorem cz_refused_iff (a b : Qubit) : (∃ e, (cz a b).operation = .error e) ↔ a = b := by
  have htaken : (∃ op, (cz a b).operation = .ok op) ↔ a ≠ b := by
    simp [operation, Operation.cz, Operation.ofGate_eq_ok_iff, Action.Takes, Gate.arity,
      StandardGate.arity]
  rw [← not_iff_not, ← ne_eq, ← htaken]
  cases (cz a b).operation <;> simp

/-- A measurement is refused only for missing qubits or a qubit given twice. -/
theorem measure_refused_iff (qs : List Qubit) :
    (∃ e, (measure qs).operation = .error e) ↔ qs = [] ∨ ¬ qs.Nodup := by
  have htaken : (∃ op, (measure qs).operation = .ok op) ↔ qs ≠ [] ∧ qs.Nodup := by
    simp [operation, Operation.ofMeasure_eq_ok_iff, Action.Takes]
  rw [← not_iff_not, not_or, not_not, ← ne_eq, ← htaken]
  cases (measure qs).operation <;> simp

def run (c : Circuit) (ks : List Call) : Circuit := ks.foldl (fun c k => (k.inPlace c).2) c

/-- The operations of the calls that are not refused. -/
def accepted (ks : List Call) : List Operation := ks.filterMap (·.operation.toOption)

theorem accepted_cons (k : Call) (ks : List Call) :
    accepted (k :: ks) = k.operation.toOption.toList ++ accepted ks := by
  rw [accepted, List.filterMap_cons]
  cases k.operation <;> rfl

/-- Calls append the operations of those that are not refused. -/
theorem run_eq (ks : List Call) (c : Circuit) :
    run c ks = ⟨(accepted ks).foldl appended c.moments⟩ := by
  induction ks generalizing c with
  | nil =>
    obtain ⟨ms⟩ := c
    rfl
  | cons k ks ih =>
    have hfirst : (k.inPlace c).2.moments =
        k.operation.toOption.toList.foldl appended c.moments := by
      rcases k.gains_or_refused c with ⟨op, d, hop, hd, hplace, -⟩ | ⟨e, hop, -, hplace⟩
      · rw [result_eq, hop] at hd
        obtain rfl : ⟨appended c.moments op⟩ = d :=
          Except.ok.inj ((append_eq_ok c op).symm.trans hd)
        rw [hplace, hop]
        rfl
      · rw [hplace, hop]
        rfl
    have hrun : run c (k :: ks) = run (k.inPlace c).2 ks := rfl
    rw [hrun, ih, hfirst, accepted_cons, List.foldl_append]

end Call

/-- An append to any circuit, of any operation, succeeds: it adds the operation to one moment as its
last, or in a new moment at the end, and changes nothing else. Each qubit keeps its operations in
their order, and the new one comes behind them if it acts on the qubit. So a call adds one operation,
or it is refused and leaves the circuit as it was; a gate on a coupler is refused for a qubit given
twice, a measurement also for missing qubits. After any calls each qubit has the operations that it
had before and then those of the calls that were not refused. -/
theorem append_gains (c : Circuit) :
    (∀ op, ∃ d, c.append op = .ok d ∧ c.appendInPlace op = (.ok (), d) ∧
      Gains op c.moments d.moments ∧
      ∀ q, onQubit q d.operations =
        onQubit q c.operations ++ if op.actsOn q then [op] else []) ∧
    (∀ k : Call,
      (∃ op d, k.operation = .ok op ∧ k.result c = .ok d ∧ k.inPlace c = (.ok (), d) ∧
        Gains op c.moments d.moments) ∨
      ∃ e, k.operation = .error e ∧ k.result c = .error e ∧ k.inPlace c = (.error e, c)) ∧
    (∀ a b, (∃ e, (Call.cz a b).operation = .error e) ↔ a = b) ∧
    (∀ qs, (∃ e, (Call.measure qs).operation = .error e) ↔ qs = [] ∨ ¬ qs.Nodup) ∧
    ∀ ks q, onQubit q (Call.run c ks).operations =
      onQubit q c.operations ++ onQubit q (Call.accepted ks) := by
  refine ⟨fun op => ?_, fun k => k.gains_or_refused c, Call.cz_refused_iff,
    Call.measure_refused_iff, fun ks q => ?_⟩
  · refine ⟨_, append_eq_ok c op, ?_, gains_appended op c.moments, fun q => ?_⟩
    · rw [appendInPlace_eq, append_eq_ok]
      rfl
    · exact (onQubit_appended c.moments op q).trans (by simp [onQubit, List.filter_cons, operations])
  · rw [Call.run_eq]
    exact onQubit_foldl_appended (Call.accepted ks) c.moments q

end Circuit
end PulseScript
