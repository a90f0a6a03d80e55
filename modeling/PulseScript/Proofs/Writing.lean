import Mathlib
import PulseScript.Proofs.Concatenation
import PulseScript.Proofs.MomentLines
import PulseScript.Script.Writer

/-!
# Writing line by line

To write moments is to write lines that do not depend on what was written before, and behind them
the text ends with a barrier. So it makes no difference that a nested circuit is run again for each
repetition, and a moment is closed already exactly if its nested circuits have lines. The script that
is written is the one that is put together from lines.
-/
namespace PulseScript

namespace Output

/-- The output with these lines behind it, the last of them a barrier or not. -/
def add (o : Output) (lines : List String) (closed : Bool) : Output :=
  ⟨o.text ++ String.join (lines.map (· ++ "\n")), o.numLines + lines.length,
    if lines = [] then o.endsWithBarrier else closed⟩

@[simp] theorem add_nil (o : Output) (closed : Bool) : o.add [] closed = o := by simp [add]

theorem add_add (o : Output) (xs ys : List String) (b c : Bool) :
    (o.add xs b).add ys c = o.add (xs ++ ys) (if ys = [] then b else c) := by
  by_cases hx : xs = [] <;> by_cases hy : ys = [] <;>
    simp [add, hx, hy, String.append_assoc, Nat.add_assoc]

theorem writeLine_eq (o : Output) (line : String) : o.writeLine line = o.add [line] false := by
  simp [writeLine, add, String.append_assoc]

theorem writeBarrier_eq (o : Output) (barrier : String) :
    o.writeBarrier barrier = o.add [barrier] true := by
  simp [writeBarrier, add, String.append_assoc]

theorem foldl_writeLine (o : Output) (lines : List String) :
    lines.foldl writeLine o = o.add lines false := by
  induction lines generalizing o with
  | nil => rw [List.foldl_nil, add_nil]
  | cons line lines ih => rw [List.foldl_cons, ih, writeLine_eq, add_add, ite_self]; rfl

def closed (o : Output) (lines : List String) : Output := o.add lines true

@[simp] theorem closed_nil (o : Output) : o.closed [] = o := o.add_nil true

theorem closed_closed (o : Output) (xs ys : List String) :
    (o.closed xs).closed ys = o.closed (xs ++ ys) := by
  rw [closed, closed, add_add, ite_self]
  rfl

theorem add_closed (o : Output) (xs : List String) {ys : List String} (hy : ys ≠ []) :
    (o.add xs false).closed ys = o.closed (xs ++ ys) := by
  rw [closed, add_add, if_neg hy]
  rfl

theorem finish_closed (lines : List String) : (empty.closed lines).finish = scriptText lines := by
  cases lines with
  | nil => rfl
  | cons line lines =>
    rw [scriptText_eq_join (List.cons_ne_nil line lines)]
    simp [finish, closed, add, empty]

end Output

namespace Writer

/-- Writes these lines, wherever it starts, or fails with this error. -/
def of (lines : Except ScriptError (List String)) : Writer := fun o => lines.map o.closed

/-- Writers one after the other write their lines one after the other. -/
theorem of_bind (xs ys : Except ScriptError (List String)) (o : Output) :
    of xs o >>= of ys = of (do return (← xs) ++ (← ys)) o := by
  cases xs with
  | error e => rfl
  | ok xs =>
    cases ys with
    | error e => rfl
    | ok ys => exact congrArg Except.ok (o.closed_closed xs ys)

/-- To run a writer again is to write its lines again. -/
theorem times_of (lines : Except ScriptError (List String)) (n : Nat) :
    (of lines).times n = of (if n = 0 then pure [] else lines.map (repeatLines n)) := by
  funext o
  induction n generalizing o with
  | zero => exact congrArg Except.ok o.closed_nil.symm
  | succ n ih =>
    rw [times, funext ih, of_bind, if_neg (Nat.succ_ne_zero n)]
    congr 1
    cases lines with
    | error e => rfl
    | ok lines =>
      cases n with
      | zero => simp [Except.map, pure, Except.pure, bind, Except.bind, repeatLines_eq]
      | succ n => simp [Except.map, bind, Except.bind, pure, Except.pure, repeatLines_eq,
          List.replicate_succ]

theorem foldlM_of {α : Type} (lines : α → Except ScriptError (List String)) (xs : List α)
    (o : Output) :
    xs.foldlM (fun o x => of (lines x) o) o = of ((xs.mapM lines).map List.flatten) o := by
  induction xs generalizing o with
  | nil => exact congrArg Except.ok o.closed_nil.symm
  | cons x xs ih =>
    rw [List.foldlM_cons, List.mapM_cons, funext ih, of_bind]
    congr 1
    cases lines x with
    | error e => rfl
    | ok front => cases xs.mapM lines <;> rfl

def ofNested (x : String × Nat × Except ScriptError (List String)) : String × Nat × Writer :=
  (x.1, x.2.1, of x.2.2)

end Writer

namespace Pending

/-- What a moment has in store once its operations have given these parts. -/
def add (p : Pending) (parts : List Part) : Pending :=
  ⟨p.entries ++ parts.filterMap Part.entry?, p.measured ++ parts.flatMap Part.labels,
    p.nested ++ (parts.filterMap Part.nested?).map Writer.ofNested⟩

theorem add_nil (p : Pending) : p.add [] = p := by simp [add]

theorem add_add (p : Pending) (xs ys : List Part) : (p.add xs).add ys = p.add (xs ++ ys) := by
  simp [add]

theorem writeMeasured_add (parts : List Part) (o : Output) :
    (empty.add parts).writeMeasured o = o.add (measureLines parts) false := by
  have hmeasured : (empty.add parts).measured = parts.flatMap Part.labels := rfl
  rw [writeMeasured, hmeasured, measureLines]
  by_cases hlabels : parts.flatMap Part.labels = []
  · simp [hlabels]
  · rw [if_neg (by simpa using hlabels)]
    split
    · rename_i hsorted
      exact absurd (List.perm_nil.mp (hsorted ▸ (List.mergeSort_perm _ _).symm)) hlabels
    · exact o.writeLine_eq _

theorem foldlM_nested (parts : List Part) (o : Output) :
    (sortByKey (empty.add parts).nested).foldlM (fun o x => x.2.2.times x.2.1 o) o =
      Writer.of (nestedLines parts) o := by
  have hnested : (empty.add parts).nested = (parts.filterMap Part.nested?).map Writer.ofNested := rfl
  rw [hnested, sortByKey_map Writer.ofNested fun _ => rfl, List.foldlM_map]
  simp only [Writer.ofNested, Writer.times_of]
  exact Writer.foldlM_of (fun x : String × Nat × Except ScriptError (List String) =>
    if x.2.1 = 0 then pure [] else x.2.2.map (repeatLines x.2.1)) _ o

/-- A moment is written by its lines. -/
theorem write_add (t : Target) (parts : List Part) :
    (empty.add parts).write t.barrier = Writer.of (t.partsLines parts) := by
  funext o
  have hown : (empty.add parts).writeMeasured ((empty.add parts).writeEntries o) =
      o.add (entryLines parts ++ measureLines parts) false := by
    rw [writeMeasured_add, writeEntries, Output.foldl_writeLine, Output.add_add, ite_self]
    rfl
  simp only [write, hown, foldlM_nested, Target.partsLines]
  cases nestedLines parts with
  | error e => rfl
  | ok nested =>
    refine congrArg Except.ok ?_
    change (if _ then _ else _) = o.closed _
    by_cases hnested : nested = []
    · -- nothing has been written behind the lines of the moment itself
      subst hnested
      rw [Output.closed_nil, if_neg (by simp), Output.writeBarrier_eq, List.append_nil]
      exact o.add_closed _ (List.cons_ne_nil t.barrier [])
    · have hclosed := o.add_closed (entryLines parts ++ measureLines parts) hnested
      have hlength : 0 < nested.length := List.length_pos_iff.mpr hnested
      rw [if_pos (by simpa [Output.closed, Output.add, hnested] using hlength), hclosed]
      simp [hnested]

end Pending

/-- Operations that are collected leave their parts. -/
theorem collectOperations_eq {t : Target} {ops : List Operation}
    (h : ∀ op ∈ ops, ∀ p, collectOperation t op p = (operationPart t op).map fun x => p.add [x])
    (p : Pending) : collectOperations t ops p = (operationParts t ops).map p.add := by
  induction ops generalizing p with
  | nil => exact congrArg Except.ok p.add_nil.symm
  | cons op ops ih =>
    obtain ⟨hop, hops⟩ := List.forall_mem_cons.mp h
    rw [collectOperations, operationParts, hop]
    cases operationPart t op with
    | error e => rfl
    | ok part =>
      change collectOperations t ops (p.add [part]) = _
      rw [ih hops]
      cases operationParts t ops with
      | error e => rfl
      | ok parts => exact congrArg Except.ok (p.add_add [part] parts)

theorem writeMoments_eq_of_collect {t : Target} {ms : List Moment}
    (h : ∀ m ∈ ms, ∀ op ∈ m.operations, ∀ p,
      collectOperation t op p = (operationPart t op).map fun x => p.add [x]) :
    writeMoments t ms = Writer.of (momentsLines t ms) := by
  induction ms with
  | nil =>
    funext o
    exact congrArg Except.ok o.closed_nil.symm
  | cons m ms ih =>
    obtain ⟨ops⟩ := m
    obtain ⟨hm, hms⟩ := List.forall_mem_cons.mp h
    funext o
    rw [writeMoments, momentsLines, collectOperations_eq hm, ih hms]
    cases operationParts t ops with
    | error e => rfl
    | ok parts =>
      change (Pending.empty.add parts).write t.barrier o >>= Writer.of (momentsLines t ms) = _
      rw [Pending.write_add, Writer.of_bind]
      rfl

/-- An operation that is collected leaves its part. -/
theorem collectOperation_eq (t : Target) (op : Operation) (p : Pending) :
    collectOperation t op p = (operationPart t op).map fun x => p.add [x] := by
  induction op generalizing p with
  | act a qs =>
    rw [collectOperation, operationPart]
    cases hpart : t.actionPart a qs with
    | error e => rfl
    | ok part =>
      have hnested : part.nested? = none := by
        cases t.gives_of_actionPart hpart <;> rfl
      refine congrArg Except.ok ?_
      cases part <;> simp_all [Pending.addPart, Pending.add, Part.entry?, Part.labels, Part.nested?]
  | subcircuit c n qs ih =>
    obtain ⟨ms⟩ := c
    rw [collectOperation, operationPart, writeMoments_eq_of_collect ih]
    cases t.smallestLabel qs with
    | error e => rfl
    | ok key =>
      refine congrArg Except.ok ?_
      simp [Pending.addNested, Pending.add, Part.entry?, Part.labels, Part.nested?, Writer.ofNested]

/-- Moments are written by their lines. -/
theorem writeMoments_eq (t : Target) (ms : List Moment) :
    writeMoments t ms = Writer.of (momentsLines t ms) :=
  writeMoments_eq_of_collect fun _ _ op _ => collectOperation_eq t op

/-- The script that is written line by line is the one that is put together from lines. -/
theorem Circuit.writeScript_eq (t : Target) (c : Circuit) : c.writeScript t = c.toScript t := by
  rw [writeScript, toScript, lines, writeMoments_eq]
  split_ifs
  · rfl
  · rfl
  · cases momentsLines t c.moments with
    | error e => rfl
    | ok lines => exact congrArg Except.ok (Output.finish_closed lines)

end PulseScript
