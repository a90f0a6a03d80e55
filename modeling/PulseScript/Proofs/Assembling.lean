import Mathlib
import PulseScript.Proofs.Construction
import PulseScript.Proofs.Parts
import PulseScript.Proofs.Reading

/-!
# From written lines to moments

A script of written lines is read as one moment for each of its barriers. The moments hold
the operations that the lines were written for, except that a decoupling sequence comes
back with the durations that its numbers are read as.
-/
namespace PulseScript

/-- What a reader makes of a written operation. A sequence is read from its numbers and
must be valid; everything else is read as it was. -/
def Operation.reread? : Operation → Option Operation
  | .act (.decoupling d) qs =>
    (d.reread?.filter fun e => e.validate.isOk).map fun e => .act (.decoupling e) qs
  | op => some op

/-- Whether the durations of a sequence read back as they were; nothing else can differ. -/
def Operation.readsBack : Operation → Bool
  | .act (.decoupling d) _ => decide d.ReadsBack
  | _ => true

structure Wiring.Reads (w : Wiring) (s : Statement) (op : Operation) : Prop where
  inside : s.isBarrier = false
  couplers : s.isCoupled = true → w.couplers.isSome = true
  operation : ∀ line, (s.operation? w line).toOption = op.reread?.map some

/-- A script with a program is refused for a missing registry, or is what the program is
assembled to. -/
theorem Circuit.ofScript_of_program {w : Wiring} {filter : Option LineFilter} {source : String}
    {p : Program} (h : Program.ofText filter source = .ok p) :
    Circuit.ofScript w filter source =
      if w.couplers.isNone && p.usesCouplers then .error .missingCouplers else p.assemble w := by
  simp only [ofScript, h, bind, Except.bind]
  cases w.couplers.isNone && p.usesCouplers <;> rfl

theorem Circuit.ofScript_eq_ok_iff (w : Wiring) (filter : Option LineFilter) (source : String)
    (c : Circuit) : Circuit.ofScript w filter source = .ok c ↔ ∃ p,
      Program.ofText filter source = .ok p ∧ (w.couplers = none → p.usesCouplers = false) ∧
        p.assemble w = .ok c := by
  constructor
  · intro h
    obtain ⟨p, hp, -⟩ := (bind_eq_ok_iff _ _ _).mp h
    rw [ofScript_of_program hp] at h
    split at h
    · exact absurd h (by simp)
    · rename_i hscan
      exact ⟨p, hp, fun hnone => by simpa [hnone] using hscan, h⟩
  · rintro ⟨p, hp, hcouplers, h⟩
    rw [ofScript_of_program hp, if_neg, h]
    cases hw : w.couplers with
    | none => simp [hcouplers hw]
    | some r => simp

theorem Program.assemble_eq_ok_iff_foldlM {w : Wiring} {p : Program} (c : Circuit) :
    p.assemble w = .ok c ↔ ∃ s, p.lines.foldlM (Assembly.step w) .start = .ok s ∧ s.finish = c := by
  unfold assemble
  cases p.lines.foldlM (Assembly.step w) .start <;> simp

/-- Lines in groups that barriers close, each group written for the operations of a moment. -/
inductive Plays (t : Target) (w : Wiring) : List String → List (List Operation) → Prop where
  | nil : Plays t w [] []
  | cons {lines rest : List String} {ss : List Statement} {ops : List Operation}
    {moments : List (List Operation)} (hs : Spells lines ss) (hr : List.Forall₂ w.Reads ss ops)
    (h : Plays t w rest moments) : Plays t w (lines ++ t.barrier :: rest) (ops :: moments)

namespace Plays

variable {t : Target} {w : Wiring}

theorem append {lines rest : List String} {ms ns : List (List Operation)}
    (h : Plays t w lines ms) (h' : Plays t w rest ns) : Plays t w (lines ++ rest) (ms ++ ns) := by
  induction h with
  | nil => exact h'
  | cons hs hr _ ih =>
    rw [List.append_assoc, List.cons_append]
    exact .cons hs hr ih

end Plays

theorem liftBuild_eq_ok_iff {α : Type} (r : Except BuildError α) (a : α) :
    liftBuild r = .ok a ↔ r = .ok a := by
  cases r <;> simp [liftBuild, Except.mapError]

theorem Wiring.qubit_eq_ok_iff (w : Wiring) (line : Nat) (label : String) (q : Qubit) :
    w.qubit line label = .ok q ↔ w.qubitOf? label = some q := by
  unfold qubit
  cases w.qubitOf? label <;> simp

theorem Wiring.pair_eq_ok_iff (w : Wiring) (name : String) (pair : String × String) :
    w.pair name = .ok pair ↔ ∃ r, w.couplers = some r ∧ r.pairFor? name = some pair := by
  unfold Wiring.pair
  cases w.couplers with
  | none => simp
  | some r => cases hn : r.pairFor? name <;> simp [hn]

theorem Mnemonic.gateAt_eq_ok_iff (m : Mnemonic) (line : Nat) (g : StandardGate) :
    m.gateAt line = .ok g ↔ m.gate? = some g := by
  unfold gateAt
  cases m.gate? <;> simp

theorem toOption_bind {ε α β : Type} (x : Except ε α) (f : α → Except ε β) :
    (x >>= f).toOption = x.toOption.bind fun a => (f a).toOption := by
  cases x <;> rfl

theorem toOption_eq_some_iff {ε α : Type} (x : Except ε α) (a : α) :
    x.toOption = some a ↔ x = .ok a := by
  cases x <;> simp [Except.toOption]

namespace Operation

theorem qubits_of_reread? {op r : Operation} (h : op.reread? = some r) : r.qubits = op.qubits := by
  unfold reread? at h
  split at h
  · obtain ⟨e, -, rfl⟩ := Option.map_eq_some_iff.mp h
    rfl
  · obtain rfl : op = r := by simpa using h
    rfl

/-- What reads back is reread as itself, if it is no sequence or a valid one. -/
theorem reread?_eq_self {op : Operation} (hread : op.readsBack = true)
    (hvalid : ∀ d qs, op = .act (.decoupling d) qs → d.validate = .ok ()) :
    op.reread? = some op := by
  unfold reread?
  split
  · rename_i d qs
    rw [(Decoupling.reread?_eq_some_self_iff d).mpr (of_decide_eq_true hread)]
    simp [hvalid d qs rfl, Except.isOk, Except.toBool]
  · rfl

end Operation

theorem mapM_eq_self {α : Type} {f : α → Option α} {xs : List α} (h : ∀ x ∈ xs, f x = some x) :
    xs.mapM f = some xs := by
  induction xs with
  | nil => rfl
  | cons x xs ih =>
    rw [List.mapM_cons, h x (by simp), ih fun y hy => h y (List.mem_cons_of_mem x hy)]
    rfl

namespace Assembly

variable {w : Wiring}

/-- A statement that was written for an operation adds it to the open moment. -/
theorem step_reads {s : Assembly} {l : ProgramLine} {op : Operation} (h : w.Reads l.statement op)
    (hfree : ∀ x ∈ s.current.operations, x.Apart op) :
    (Assembly.step w s l).toOption =
      op.reread?.map fun r => ⟨s.closed, ⟨s.current.operations ++ [r]⟩⟩ := by
  have hop := h.operation l.number
  rw [Assembly.step, if_neg (by simp [h.inside]), toOption_bind, hop]
  cases hr : op.reread? with
  | none => rfl
  | some r =>
    have hpush : s.current.push r = .ok ⟨s.current.operations ++ [r]⟩ := by
      refine (Moment.push_eq_ok_iff _ _ _).mpr ⟨?_, rfl⟩
      intro x hx
      rw [Operation.Apart, Operation.qubits_of_reread? hr]
      exact hfree x hx
    simp [hpush, liftBuild, Except.mapError, Except.toOption, bind, Except.bind, pure, Except.pure]

/-- Statements that were written for operations apart add them in their order. -/
theorem foldlM_reads {pls : List ProgramLine} {ops : List Operation}
    (h : List.Forall₂ w.Reads (pls.map (·.statement)) ops) (hapart : ops.Pairwise Operation.Apart)
    (s : Assembly) (hfree : ∀ x ∈ s.current.operations, ∀ op ∈ ops, x.Apart op) :
    (pls.foldlM (Assembly.step w) s).toOption =
      (ops.mapM Operation.reread?).map fun rs => ⟨s.closed, ⟨s.current.operations ++ rs⟩⟩ := by
  induction pls generalizing ops s with
  | nil =>
    cases h
    obtain ⟨closed, ⟨current⟩⟩ := s
    simp [Except.toOption, pure, Except.pure]
  | cons l pls ih =>
    cases h with
    | cons hl h =>
      rename_i op ops
      have hstep := step_reads hl fun x hx => hfree x hx op (by simp)
      rw [List.foldlM_cons, toOption_bind, hstep, List.mapM_cons]
      cases hr : op.reread? with
      | none => rfl
      | some r =>
        have hnext := ih h (List.pairwise_cons.mp hapart).2
          ⟨s.closed, ⟨s.current.operations ++ [r]⟩⟩ (by
            intro x hx y hy
            rcases List.mem_append.mp hx with hx | hx
            · exact hfree x hx y (by simp [hy])
            · rw [List.mem_singleton.mp hx, Operation.Apart, Operation.qubits_of_reread? hr]
              exact (List.pairwise_cons.mp hapart).1 y hy)
        simp only [Option.map_some, Option.bind_some, hnext]
        cases ops.mapM Operation.reread? <;> simp

/-- A group of such statements and its barrier add a moment. -/
theorem foldlM_group {pls : List ProgramLine} {l : ProgramLine} {ops : List Operation}
    (h : List.Forall₂ w.Reads (pls.map (·.statement)) ops) (hapart : ops.Pairwise Operation.Apart)
    (hl : l.statement.isBarrier = true) (closed : List Moment) :
    ((pls ++ [l]).foldlM (Assembly.step w) ⟨closed, .empty⟩).toOption =
      (ops.mapM Operation.reread?).map fun rs => ⟨⟨rs⟩ :: closed, .empty⟩ := by
  have hops := foldlM_reads h hapart ⟨closed, .empty⟩ (by simp [Moment.empty])
  have hclose : ∀ s, Assembly.step w s l = .ok s.close := by
    intro s
    rw [step, if_pos hl]
  rw [List.foldlM_append, toOption_bind, hops]
  cases ops.mapM Operation.reread? with
  | none => rfl
  | some rs =>
    simp [hclose, close, Moment.empty, Except.toOption, pure, Except.pure, bind, Except.bind]

end Assembly

def rereadMoments? (moments : List (List Operation)) : Option (List (List Operation)) :=
  moments.mapM fun ops => ops.mapM Operation.reread?

theorem rereadMoments?_eq_self {moments : List (List Operation)}
    (h : ∀ ops ∈ moments, ∀ op ∈ ops, op.reread? = some op) :
    rereadMoments? moments = some moments :=
  mapM_eq_self fun ops hops => mapM_eq_self (h ops hops)

namespace Plays

variable {t : Target} {w : Wiring} {lines : List String} {moments : List (List Operation)}

/-- Written groups are read as statements, and those are assembled to what a reader makes of
the moments. -/
theorem spells (h : Plays t w lines moments) (hagents : t.NamesAgents)
    (hapart : ∀ ops ∈ moments, ops.Pairwise Operation.Apart) :
    ∃ ss, Spells lines ss ∧ (∀ s ∈ ss, s.isCoupled = true → w.couplers.isSome = true) ∧
      ∀ pls : List ProgramLine, pls.map (·.statement) = ss → ∀ closed,
        (pls.foldlM (Assembly.step w) ⟨closed, .empty⟩).toOption =
          (rereadMoments? moments).map fun ms => ⟨(ms.map Moment.mk).reverse ++ closed, .empty⟩ := by
  induction h with
  | nil =>
    refine ⟨[], .nil, by simp, ?_⟩
    rintro pls hpls closed
    obtain rfl : pls = [] := by simpa using hpls
    simp [rereadMoments?, Except.toOption, pure, Except.pure]
  | cons hs hr _ ih =>
    rename_i ss ops moments _
    obtain ⟨us, hus, hcoupled, hrun⟩ := ih fun ops hops => hapart ops (by simp [hops])
    have hfirst : ∀ s ∈ ss, s.isCoupled = true → w.couplers.isSome = true := by
      intro s hs hc
      obtain ⟨op, -, hreads⟩ := forall₂_right_of_mem hr hs
      exact hreads.couplers hc
    obtain ⟨words, hbarrier⟩ := hagents.spells
    refine ⟨ss ++ (.barrier words :: us), ?_, ?_, ?_⟩
    · exact hs.append (hbarrier.append hus)
    · intro s hmem hc
      rcases List.mem_append.mp hmem with hmem | hmem
      · exact hfirst s hmem hc
      · rcases List.mem_cons.mp hmem with rfl | hmem
        · exact absurd hc (by simp [Statement.isCoupled])
        · exact hcoupled s hmem hc
    · intro pls hpls closed
      obtain ⟨front, back, rfl, hfront, hback⟩ := List.map_eq_append_iff.mp hpls
      obtain ⟨l, tail, rfl, hl, htail⟩ := List.map_eq_cons_iff.mp hback
      subst hfront
      have hgroup := Assembly.foldlM_group hr (hapart ops (by simp))
        (show l.statement.isBarrier = true by rw [hl]; rfl) closed
      rw [← List.singleton_append, ← List.append_assoc, List.foldlM_append, toOption_bind, hgroup,
        rereadMoments?, List.mapM_cons]
      cases ops.mapM Operation.reread? with
      | none => rfl
      | some rs =>
        have hrest := hrun tail htail (⟨rs⟩ :: closed)
        rw [rereadMoments?] at hrest
        rw [Option.map_some, Option.bind_some, hrest]
        cases moments.mapM fun ops => ops.mapM Operation.reread? <;> simp

/-- A script of written groups is read as what a reader makes of the moments. -/
theorem ofScript (h : Plays t w lines moments) (hagents : t.NamesAgents)
    (hapart : ∀ ops ∈ moments, ops.Pairwise Operation.Apart) :
    (Circuit.ofScript w none (scriptText lines)).toOption =
      (rereadMoments? moments).map fun ms => ⟨ms.map Moment.mk⟩ := by
  obtain ⟨ss, hspells, hcoupled, hrun⟩ := h.spells hagents hapart
  obtain ⟨pls, hpls, hprogram⟩ := hspells.program
  have hneed : ¬ (w.couplers.isNone && (Program.mk pls).usesCouplers) = true := by
    intro hc
    rw [Bool.and_eq_true, Program.usesCouplers, List.any_eq_true] at hc
    obtain ⟨hnone, l, hl, hcl⟩ := hc
    have hsome := hcoupled l.statement (hpls ▸ List.mem_map_of_mem hl) hcl
    cases hw : w.couplers <;> simp [hw] at hnone hsome
  have hassemble : ((Program.mk pls).assemble w).toOption =
      (pls.foldlM (Assembly.step w) .start).toOption.map Assembly.finish := by
    rw [Program.assemble]
    cases pls.foldlM (Assembly.step w) .start <;> rfl
  have hfinish : ∀ closed, Assembly.finish ⟨closed, .empty⟩ = ⟨closed.reverse⟩ := fun _ => rfl
  rw [Circuit.ofScript_of_program hprogram, if_neg hneed, hassemble, Assembly.start,
    hrun pls hpls [], Option.map_map]
  simp [Function.comp_def, hfinish]

end Plays
end PulseScript
