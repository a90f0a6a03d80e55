import Mathlib
import PulseScript.Proofs.Domain
import PulseScript.Proofs.MomentText

/-!
# What a statement stands for

A statement that is neither barrier nor remark stands for one operation, if the labels and
the coupler that it names are known. A reader takes it for just that operation.
-/
namespace PulseScript

/-- The mnemonic takes what the statement holds, and what must not be empty is not. -/
def Statement.Fits : Statement → Prop
  | .gate m _ => m.operands = .qubit
  | .coupled m _ => m.operands = .coupler
  | .measure labels => labels ≠ []
  | .barrier agents => agents ≠ []
  | _ => True

theorem Statement.fits_of_ofOperands {m : Mnemonic} {args : List String} {s : Statement}
    (h : Statement.ofOperands m args = .ok s) : s.Fits := by
  unfold Statement.ofOperands at h
  split at h
  case h_1 hm => cases h; exact hm
  case h_3 hm => cases h; exact hm
  case h_6 hne => cases h; exact hne
  case h_8 hne => cases h; exact hne
  case h_9 =>
    split at h
    · cases h; trivial
    · cases h
  all_goals cases h

theorem SourceLine.fits_of_statement {filter : Option LineFilter} {l : SourceLine} {s : Statement}
    (h : l.statement filter = .ok s) : s.Fits := by
  unfold SourceLine.statement SourceLine.instruction at h
  split at h
  · cases h; trivial
  · split at h
    · cases h; trivial
    · split at h
      · cases h
      · split at h
        · cases h
        · cases h
          exact Statement.fits_of_ofOperands ‹_›

namespace ReaderState

/-- What one line does to a reader: it opens a block, is a statement, closes a block, or goes to
the open block. -/
inductive Takes (filter : Option LineFilter) (l : SourceLine) : ReaderState → ReaderState → Prop where
  | opening {done : List ProgramLine} (h : l.first = .comment contextStart) :
    Takes filter l ⟨done, none⟩ ⟨done, some (.begin l.number)⟩
  | statement {done : List ProgramLine} {u : Statement} (h : l.first ≠ .comment contextStart)
    (hu : l.statement filter = .ok u) :
    Takes filter l ⟨done, none⟩ ⟨⟨l.number, u⟩ :: done, none⟩
  | closing {done : List ProgramLine} {b : OpenBlock} {block : ContextBlock}
    (h : l.first = .comment contextEnd) (hb : b.close = .ok block) :
    Takes filter l ⟨done, some b⟩ ⟨⟨b.start, .context block⟩ :: done, none⟩
  | inside {done : List ProgramLine} {b : OpenBlock} (hend : l.first ≠ .comment contextEnd)
    (hstart : l.first ≠ .comment contextStart) :
    Takes filter l ⟨done, some b⟩ ⟨done, some (b.addLine l)⟩

variable {filter : Option LineFilter} {s s' : ReaderState}

theorem step_eq_ok_iff {l : SourceLine} : step filter s l = .ok s' ↔ Takes filter l s s' := by
  obtain ⟨done, _ | b⟩ := s
  · by_cases hopen : l.first = .comment contextStart
    · simp only [step, hopen, if_true, Except.ok.injEq]
      constructor
      · rintro rfl
        exact .opening hopen
      · rintro (_ | ⟨hne, -⟩)
        · rfl
        · exact absurd hopen hne
    · simp only [step, hopen, if_false]
      constructor
      · intro h
        split at h
        · cases h
        · cases h
          exact .statement hopen ‹_›
      · rintro (hne | ⟨-, hu⟩)
        · exact absurd hne hopen
        · rw [hu]
  · by_cases hend : l.first = .comment contextEnd
    · simp only [step, hend, if_true]
      constructor
      · intro h
        split at h
        · cases h
        · cases h
          exact .closing hend ‹_›
      · rintro (_ | _ | ⟨-, hb⟩ | ⟨hne, -⟩)
        · rw [hb]
        · exact absurd hend hne
    · simp only [step, hend, if_false]
      constructor
      · intro h
        split_ifs at h with hopen
        cases h
        exact .inside hend hopen
      · rintro (_ | _ | ⟨hne, -⟩ | ⟨-, hstart⟩)
        · exact absurd hne hend
        · rw [if_neg hstart]

/-- Each line adds a statement that fits, or none. -/
theorem fits_of_step {l : SourceLine} (h : ∀ d ∈ s.done, d.statement.Fits)
    (hs : step filter s l = .ok s') : ∀ d ∈ s'.done, d.statement.Fits := by
  cases step_eq_ok_iff.mp hs with
  | opening => exact h
  | statement _ hu => exact List.forall_mem_cons.mpr ⟨SourceLine.fits_of_statement hu, h⟩
  | closing => exact List.forall_mem_cons.mpr ⟨trivial, h⟩
  | inside => exact h

/-- Line after line adds only statements that fit. -/
theorem fits_of_foldlM {ls : List SourceLine} (h : ∀ d ∈ s.done, d.statement.Fits)
    (hs : ls.foldlM (step filter) s = .ok s') : ∀ d ∈ s'.done, d.statement.Fits :=
  foldlM_keeps (P := fun s => ∀ d ∈ s.done, d.statement.Fits)
    (fun _ _ _ _ hfits hstep => fits_of_step hfits hstep) h hs

end ReaderState

theorem Program.ofText_eq_ok_iff (filter : Option LineFilter) (source : String) (p : Program) :
    Program.ofText filter source = .ok p ↔ ∃ done,
      (sourceLines source).foldlM (ReaderState.step filter) .start = .ok ⟨done, none⟩ ∧
        p = ⟨done.reverse⟩ := by
  unfold ofText ofLines
  cases (sourceLines source).foldlM (ReaderState.step filter) .start with
  | error e => simp
  | ok s =>
    obtain ⟨done, _ | b⟩ := s
    · simp [ReaderState.finish, eq_comm]
    · simp [ReaderState.finish]

/-- Every statement of a program that was read fits its mnemonic. -/
theorem Program.fits_of_ofText {filter : Option LineFilter} {source : String} {p : Program}
    (h : Program.ofText filter source = .ok p) : ∀ l ∈ p.lines, l.statement.Fits := by
  obtain ⟨done, hdone, rfl⟩ := (ofText_eq_ok_iff _ _ _).mp h
  have hfits := ReaderState.fits_of_foldlM (by simp [ReaderState.start]) hdone
  simpa using hfits

def Statement.isOperation : Statement → Bool
  | .gate .. => true
  | .coupled .. => true
  | .measure _ => true
  | .idle .. => true
  | .context _ => true
  | .barrier _ => false
  | .comment _ => false
  | .ignored _ => false

theorem Mnemonic.gate?_of_coupler {m : Mnemonic} (h : m.operands = .coupler) :
    m.gate? = some .cz := by
  cases m <;> first | rfl | exact absurd h (by decide)

/-- A gate of an instruction is on one qubit, or it is the gate on a coupler. -/
theorem Mnemonic.arity_of_gate? {m : Mnemonic} {g : StandardGate} (h : m.gate? = some g) :
    g.arity = 1 ∨ g = .cz := by
  cases m <;> simp only [gate?, Option.some.injEq, reduceCtorEq] at h <;> subst h <;>
    first | exact .inl rfl | exact .inr rfl

theorem ContextBlock.decode_eq_ok_iff (b : ContextBlock) (line : Nat) (d : Decoupling)
    (label : String) :
    b.decode line = .ok (d, label) ↔ b.sequence = .ok d ∧ b.labels = .ok [label] := by
  unfold decode
  cases b.sequence with
  | error fault => simp
  | ok e =>
    cases b.labels with
    | error fault => simp
    | ok labels => rcases labels with _ | ⟨l, _ | ⟨k, rest⟩⟩ <;> simp

/-- A sequence is taken from a block only if it is valid. -/
theorem ContextBlock.valid_of_sequence {b : ContextBlock} {d : Decoupling}
    (h : b.sequence = .ok d) : d.validate = .ok () := by
  unfold sequence at h
  split at h
  · exact absurd h (by simp)
  · rename_i e _
    cases hv : e.validate with
    | error cause => exact absurd h (by simp [hv])
    | ok u =>
      obtain rfl : e = d := by simpa [hv] using h
      exact hv

namespace Wiring

inductive Denotes (w : Wiring) : Statement → Operation → Prop where
  | gate {m : Mnemonic} {g : StandardGate} {label : String} {q : Qubit} (hg : m.gate? = some g)
    (harity : g.arity = 1) (hq : w.qubitOf? label = some q) :
    Denotes w (.gate m label) (.act (.gate (.standard g)) [q])
  | coupled {m : Mnemonic} {r : CouplerRegistry} {name a b : String} {p q : Qubit}
    (hm : m.gate? = some .cz) (hr : w.couplers = some r) (hn : r.pairFor? name = some (a, b))
    (hp : w.qubitOf? a = some p) (hq : w.qubitOf? b = some q) (hne : p ≠ q) :
    Denotes w (.coupled m name) (.onCoupler [p, q])
  | measure {labels : List String} {qs : List Qubit}
    (hqs : List.Forall₂ (fun l q => w.qubitOf? l = some q) labels qs) (hne : qs ≠ [])
    (hnodup : qs.Nodup) : Denotes w (.measure labels) (.act .measure qs)
  | idle {label : String} {q : Qubit} (hq : w.qubitOf? label = some q) (ns : UInt64) :
    Denotes w (.idle label ns) (.ofDelay q ns)
  | context {b : ContextBlock} {d : Decoupling} {label : String} {q : Qubit}
    (hd : b.sequence = .ok d) (hl : b.labels = .ok [label]) (hq : w.qubitOf? label = some q) :
    Denotes w (.context b) (.ofDecoupling d q)

/-- What must be known of a statement: the qubits of its labels, which are different, the
coupler that it names, and the sequence and the one label of its block. -/
def Knows (w : Wiring) : Statement → Prop
  | .gate _ label => ∃ q, w.qubitOf? label = some q
  | .coupled _ name => ∃ r a b p q, w.couplers = some r ∧ r.pairFor? name = some (a, b) ∧
      w.qubitOf? a = some p ∧ w.qubitOf? b = some q ∧ p ≠ q
  | .measure labels => ∃ qs, List.Forall₂ (fun l q => w.qubitOf? l = some q) labels qs ∧ qs.Nodup
  | .idle label _ => ∃ q, w.qubitOf? label = some q
  | .context b => ∃ d label q, b.sequence = .ok d ∧ b.labels = .ok [label] ∧
      w.qubitOf? label = some q
  | _ => True

/-- The labels that a statement is about: its own, or those that its coupler joins or its
block carries. -/
def labelsOf (w : Wiring) : Statement → List String
  | .gate _ label => [label]
  | .coupled _ name =>
    match w.couplers.bind (·.pairFor? name) with
    | some (a, b) => [a, b]
    | none => []
  | .measure labels => labels
  | .idle label _ => [label]
  | .context b => b.labels.toOption.getD []
  | _ => []

def Uses (w : Wiring) (s : Statement) (q : Qubit) : Prop :=
  ∃ label ∈ w.labelsOf s, w.qubitOf? label = some q

def Separate (w : Wiring) (s u : Statement) : Prop := ∀ q, w.Uses s q → ¬ w.Uses u q

variable {w : Wiring}

/-- The operation of a statement is on the qubits that the statement uses. -/
theorem Denotes.uses_iff {s : Statement} {op : Operation} (h : w.Denotes s op) (q : Qubit) :
    w.Uses s q ↔ q ∈ op.qubits := by
  cases h with
  | gate hg harity hq => simp [Uses, labelsOf, hq, Operation.qubits, eq_comm]
  | coupled hm hr hn hp hq hne =>
    simp [Uses, labelsOf, hr, hn, hp, hq, Operation.onCoupler, Operation.qubits, eq_comm]
  | measure hqs hne hnodup =>
    constructor
    · rintro ⟨label, hlabel, hq⟩
      obtain ⟨p, hp, hl⟩ := forall₂_right_of_mem hqs hlabel
      obtain rfl : p = q := Option.some.inj (hl.symm.trans hq)
      exact hp
    · intro hq
      exact forall₂_left_of_mem hqs hq
  | idle hq ns => simp [Uses, labelsOf, hq, Operation.ofDelay, Operation.qubits, eq_comm]
  | context hd hl hq =>
    simp [Uses, labelsOf, hl, hq, Except.toOption, Operation.ofDecoupling, Operation.qubits, eq_comm]

theorem not_uses_of_not_isOperation {s : Statement} (h : s.isOperation = false) (q : Qubit) :
    ¬ w.Uses s q := by
  cases s with
  | barrier agents => simp [Uses, labelsOf]
  | comment text => simp [Uses, labelsOf]
  | ignored text => simp [Uses, labelsOf]
  | _ => exact absurd h (by simp [Statement.isOperation])

/-- A statement that fits stands for an operation exactly if what it says is known. -/
theorem exists_denotes_iff {s : Statement} (hfits : s.Fits) (h : s.isOperation = true) :
    (∃ op, w.Denotes s op) ↔ w.Knows s := by
  constructor
  · rintro ⟨op, hop⟩
    cases hop with
    | gate hg harity hq => exact ⟨_, hq⟩
    | coupled hm hr hn hp hq hne => exact ⟨_, _, _, _, _, hr, hn, hp, hq, hne⟩
    | measure hqs hne hnodup => exact ⟨_, hqs, hnodup⟩
    | idle hq ns => exact ⟨_, hq⟩
    | context hd hl hq => exact ⟨_, _, _, hd, hl, hq⟩
  · intro hknown
    cases s with
    | gate m label =>
      obtain ⟨q, hq⟩ := hknown
      obtain ⟨g, hg, harity⟩ := Mnemonic.gate?_of_qubit hfits
      exact ⟨_, .gate hg harity hq⟩
    | coupled m name =>
      obtain ⟨r, a, b, p, q, hr, hn, hp, hq, hne⟩ := hknown
      exact ⟨_, .coupled (Mnemonic.gate?_of_coupler hfits) hr hn hp hq hne⟩
    | measure labels =>
      obtain ⟨qs, hqs, hnodup⟩ := hknown
      have hne : qs ≠ [] := by
        rintro rfl
        exact hfits (List.forall₂_nil_right_iff.mp hqs)
      exact ⟨_, .measure hqs hne hnodup⟩
    | idle label ns =>
      obtain ⟨q, hq⟩ := hknown
      exact ⟨_, .idle hq ns⟩
    | context b =>
      obtain ⟨d, label, q, hd, hl, hq⟩ := hknown
      exact ⟨_, .context hd hl hq⟩
    | _ => exact absurd h (by simp [Statement.isOperation])

end Wiring

/-- What a reader takes for a statement is what it stands for. -/
theorem Statement.denotes_of_operation? {w : Wiring} {s : Statement} {line : Nat}
    {op : Operation} (h : s.operation? w line = .ok (some op)) : w.Denotes s op := by
  cases s with
  | gate m label =>
    simp only [operation?, bind_eq_ok_iff, pure_eq_ok_iff, Mnemonic.gateAt_eq_ok_iff,
      Wiring.qubit_eq_ok_iff, liftBuild_eq_ok_iff, Operation.ofGate_eq_ok_iff,
      Option.some.injEq] at h
    obtain ⟨g, hg, q, hq, _, ⟨htakes, rfl⟩, rfl⟩ := h
    rcases Mnemonic.arity_of_gate? hg with harity | rfl
    · exact .gate hg harity hq
    · exact absurd htakes.1 (by simp [Gate.arity, StandardGate.arity])
  | coupled m name =>
    simp only [operation?, bind_eq_ok_iff, pure_eq_ok_iff, Mnemonic.gateAt_eq_ok_iff,
      Wiring.pair_eq_ok_iff, Wiring.qubit_eq_ok_iff, liftBuild_eq_ok_iff,
      Operation.ofGate_eq_ok_iff, Option.some.injEq] at h
    obtain ⟨⟨a, b⟩, ⟨r, hr, hn⟩, g, hg, p, hp, q, hq, _, ⟨htakes, rfl⟩, rfl⟩ := h
    rcases Mnemonic.arity_of_gate? hg with harity | rfl
    · exact absurd htakes.1 (by simp [Gate.arity, harity])
    · exact .coupled hg hr hn hp hq (by simpa using htakes.2)
  | measure labels =>
    simp only [operation?, bind_eq_ok_iff, pure_eq_ok_iff, mapM_eq_ok_iff,
      Wiring.qubit_eq_ok_iff, liftBuild_eq_ok_iff, Operation.ofMeasure_eq_ok_iff,
      Option.some.injEq] at h
    obtain ⟨qs, hqs, _, ⟨htakes, rfl⟩, rfl⟩ := h
    exact .measure hqs htakes.1 htakes.2
  | idle label ns =>
    simp only [operation?, bind_eq_ok_iff, pure_eq_ok_iff, Wiring.qubit_eq_ok_iff,
      Option.some.injEq] at h
    obtain ⟨q, hq, rfl⟩ := h
    exact .idle hq ns
  | context b =>
    simp only [operation?, bind_eq_ok_iff, pure_eq_ok_iff, Wiring.qubit_eq_ok_iff,
      Option.some.injEq] at h
    obtain ⟨⟨d, label⟩, hdecode, q, hq, rfl⟩ := h
    obtain ⟨hd, hl⟩ := (b.decode_eq_ok_iff line d label).mp hdecode
    exact .context hd hl hq
  | _ => exact absurd h (by simp [operation?])

/-- What a statement stands for is what a reader takes for it. -/
theorem Wiring.Denotes.operation?_eq {w : Wiring} {s : Statement} {op : Operation}
    (h : w.Denotes s op) (line : Nat) : s.operation? w line = .ok (some op) := by
  cases h with
  | gate hg harity hq =>
    rename_i m g label q
    have htakes : (Action.gate (.standard g)).Takes [q] := by
      simp [Action.Takes, Gate.arity, harity]
    simp only [Statement.operation?, bind_eq_ok_iff, pure_eq_ok_iff, Mnemonic.gateAt_eq_ok_iff,
      Wiring.qubit_eq_ok_iff]
    exact ⟨g, hg, q, hq, _, Wiring.ofGate_eq_ok htakes, rfl⟩
  | coupled hm hr hn hp hq hne =>
    rename_i m r name a b p q
    have htakes : (Action.gate (.standard .cz)).Takes [p, q] := by
      simp [Action.Takes, Gate.arity, StandardGate.arity, hne]
    simp only [Statement.operation?, bind_eq_ok_iff, pure_eq_ok_iff, Mnemonic.gateAt_eq_ok_iff,
      Wiring.pair_eq_ok_iff, Wiring.qubit_eq_ok_iff]
    exact ⟨(a, b), ⟨r, hr, hn⟩, .cz, hm, p, hp, q, hq, _, Wiring.ofGate_eq_ok htakes, rfl⟩
  | measure hqs hne hnodup =>
    simp only [Statement.operation?, bind_eq_ok_iff, pure_eq_ok_iff, mapM_eq_ok_iff,
      Wiring.qubit_eq_ok_iff, liftBuild_eq_ok_iff, Operation.ofMeasure_eq_ok_iff]
    exact ⟨_, hqs, _, ⟨⟨hne, hnodup⟩, rfl⟩, rfl⟩
  | idle hq ns =>
    simp only [Statement.operation?, bind_eq_ok_iff, pure_eq_ok_iff, Wiring.qubit_eq_ok_iff]
    exact ⟨_, hq, rfl⟩
  | context hd hl hq =>
    rename_i b d label q
    simp only [Statement.operation?, bind_eq_ok_iff, pure_eq_ok_iff, Wiring.qubit_eq_ok_iff]
    exact ⟨(d, label), (b.decode_eq_ok_iff line d label).mpr ⟨hd, hl⟩, q, hq, rfl⟩

theorem Statement.operation?_eq_some_iff {w : Wiring} {s : Statement} (line : Nat)
    (op : Operation) : s.operation? w line = .ok (some op) ↔ w.Denotes s op :=
  ⟨denotes_of_operation?, fun h => h.operation?_eq line⟩

/-- Exactly what is to be taken as an operation is not passed over. -/
theorem Statement.operation?_eq_none_iff {w : Wiring} (s : Statement) (line : Nat) :
    s.operation? w line = .ok none ↔ s.isOperation = false := by
  cases s with
  | barrier agents => exact ⟨fun _ => rfl, fun _ => rfl⟩
  | comment text => exact ⟨fun _ => rfl, fun _ => rfl⟩
  | ignored text => exact ⟨fun _ => rfl, fun _ => rfl⟩
  | _ =>
    simp only [operation?, isOperation, bind_eq_ok_iff, pure_eq_ok_iff, reduceCtorEq, and_false,
      exists_false]

end PulseScript
