import Mathlib
import PulseScript.Proofs.Segments

/-!
# Lines that say nothing

Outside of blocks a comment that opens no block says nothing, and inside a block neither does any
line that is no marker and no header. Two scripts that have the same lines but for such ones are
read alike. The readers are compared by what can be seen of them: the statements so far, without
the bodies of blocks and without remarks, and the headers of the open block. Line after line they
look the same, and so do the programs, which is all that the circuit depends on. Where a line has
moved, an error names its new place.
-/
namespace PulseScript

structure PlaceView where
  number : Nat → Nat
  text : String → String

namespace PlaceView

/-- Places as they are. -/
def exact : PlaceView := ⟨id, id⟩

/-- Lines without their numbers, and without the blank space around them. -/
def unplaced : PlaceView := ⟨fun _ => 0, fun text => String.ofList (stripWhile isBlank text.toList)⟩

end PlaceView

def ScriptError.seen (v : PlaceView) : ScriptError → ScriptError
  | unknownMnemonic line word => unknownMnemonic (v.number line) word
  | unmappedLabel label line => unmappedLabel label (v.number line)
  | malformed line instruction reason => malformed (v.number line) (v.text instruction) reason
  | unterminatedContext line => unterminatedContext (v.number line)
  | invalidContext line fault => invalidContext (v.number line) fault
  | e => e

theorem ScriptError.seen_exact (e : ScriptError) : e.seen .exact = e := by
  cases e <;> rfl

/-- The result with its error as it is looked at, and of what was found only what `f` shows. -/
def PlaceView.result {α β : Type} (v : PlaceView) (f : α → β) :
    Except ScriptError α → Except ScriptError β
  | .ok a => .ok (f a)
  | .error e => .error (e.seen v)

namespace PlaceView

variable {α β γ δ : Type} {v : PlaceView}

theorem result_id (x : Except ScriptError α) : v.result id x = x.mapError (·.seen v) := by
  cases x <;> rfl

/-- Results that look the same lead to results that look the same. -/
theorem result_bind {f : α → β} {g : γ → δ} {x y : Except ScriptError α}
    {k k' : α → Except ScriptError γ} (h : v.result f x = v.result f y)
    (hk : ∀ a b, x = .ok a → f a = f b → v.result g (k a) = v.result g (k' b)) :
    v.result g (x >>= k) = v.result g (y >>= k') := by
  cases x with
  | ok a =>
    cases y with
    | ok b => exact hk a b rfl (Except.ok.inj h)
    | error e => exact absurd h (by simp [result])
  | error e =>
    cases y with
    | ok b => exact absurd h (by simp [result])
    | error e' => exact congrArg Except.error (Except.error.inj h)

theorem result_map {f : α → β} {g : γ → δ} {x y : Except ScriptError α} {k m : α → γ}
    (h : v.result f x = v.result f y) (hk : ∀ a b, f a = f b → g (k a) = g (m b)) :
    v.result g (x.map k) = v.result g (y.map m) := by
  have hbind : v.result g (x >>= fun a => .ok (k a)) = v.result g (y >>= fun b => .ok (m b)) :=
    result_bind h fun a b _ hab => congrArg Except.ok (hk a b hab)
  cases x <;> cases y <;> exact hbind

/-- `result_bind` for results of which everything is shown. -/
theorem result_bind_same {g : γ → δ} {x y : Except ScriptError α} {k k' : α → Except ScriptError γ}
    (h : v.result id x = v.result id y) (hk : ∀ a, v.result g (k a) = v.result g (k' a)) :
    v.result g (x >>= k) = v.result g (y >>= k') := by
  refine result_bind h fun a b _ hab => ?_
  obtain rfl : a = b := hab
  exact hk a

theorem result_foldlM {f : β → γ} {step : β → α → Except ScriptError β} {R : α → α → Prop}
    (hstep : ∀ a b s t, R a b → f s = f t → v.result f (step s a) = v.result f (step t b))
    {xs ys : List α} (h : List.Forall₂ R xs ys) {s t : β} (hs : f s = f t) :
    v.result f (xs.foldlM step s) = v.result f (ys.foldlM step t) := by
  induction h generalizing s t with
  | nil => exact congrArg Except.ok hs
  | cons hab _ ih =>
    rw [List.foldlM_cons, List.foldlM_cons]
    exact result_bind (hstep _ _ s t hab hs) fun a b _ hlike => ih hlike

end PlaceView

def ContextBlock.bare (b : ContextBlock) : ContextBlock := { b with body := [] }

/-- The statement without the body of its block, and without the text that was passed over. -/
def Statement.bare : Statement → Statement
  | .context b => .context b.bare
  | .ignored _ => .ignored ""
  | s => s

/-- The statement is an operation or a barrier. -/
def Statement.speaks (s : Statement) : Bool := s.isOperation || s.isBarrier

theorem Statement.speaks_bare (s : Statement) : s.bare.speaks = s.speaks := by
  cases s <;> rfl

def ProgramLine.seen (v : PlaceView) (d : ProgramLine) : ProgramLine :=
  ⟨v.number d.number, d.statement.bare⟩

def seenLines (v : PlaceView) (ds : List ProgramLine) : List ProgramLine :=
  (ds.filter (·.statement.speaks)).map (·.seen v)

def OpenBlock.seen (v : PlaceView) (b : OpenBlock) : OpenBlock :=
  ⟨v.number b.start, b.gate, b.targets, []⟩

def ReaderState.seen (v : PlaceView) (s : ReaderState) : ReaderState :=
  ⟨seenLines v s.done, s.openBlock.map (·.seen v)⟩

def Program.seen (v : PlaceView) (p : Program) : Program := ⟨seenLines v p.lines⟩

section Reading

variable {v : PlaceView} {filter : Option LineFilter}

theorem seenLines_cons {d d' : ProgramLine} {ds ds' : List ProgramLine} (hd : d.seen v = d'.seen v)
    (h : seenLines v ds = seenLines v ds') : seenLines v (d :: ds) = seenLines v (d' :: ds') := by
  have hspeaks : d.statement.speaks = d'.statement.speaks := by
    rw [← Statement.speaks_bare, ← Statement.speaks_bare d'.statement]
    exact congrArg (·.statement.speaks) hd
  rw [seenLines, seenLines, List.filter_cons, List.filter_cons, hspeaks]
  split
  · exact congrArg₂ List.cons hd h
  · exact h

theorem seenLines_reverse (ds : List ProgramLine) :
    seenLines v ds.reverse = (seenLines v ds).reverse := by
  rw [seenLines, seenLines, List.filter_reverse, List.map_reverse]

structure SourceLine.Alike (v : PlaceView) (l l' : SourceLine) : Prop where
  number : v.number l.number = v.number l'.number
  text : v.text l.text = v.text l'.text
  first : l.first = l'.first
  rest : l.rest = l'.rest
  ignores : ∀ f : LineFilter, f.ignores l.text = f.ignores l'.text

namespace SourceLine

variable {l l' : SourceLine}

theorem Alike.refl (v : PlaceView) (l : SourceLine) : l.Alike v l :=
  ⟨rfl, rfl, rfl, rfl, fun _ => rfl⟩

theorem Alike.isFiltered_eq (h : l.Alike v l') : isFiltered filter l = isFiltered filter l' := by
  cases filter with
  | none => rfl
  | some f => exact h.ignores f

theorem Alike.result_instruction (h : l.Alike v l') (w : String) :
    v.result Statement.bare (l.instruction w) = v.result Statement.bare (l'.instruction w) := by
  unfold instruction
  rw [h.rest]
  cases Mnemonic.ofText? w with
  | none => simp [PlaceView.result, ScriptError.seen, h.number]
  | some m =>
    cases hs : Statement.ofOperands m (wordsOf l'.rest) with
    | error reason => simp [PlaceView.result, ScriptError.seen, hs, h.number, h.text]
    | ok s => simp [PlaceView.result, hs]

theorem Alike.result_statement (h : l.Alike v l') (filter : Option LineFilter) :
    v.result Statement.bare (l.statement filter) =
      v.result Statement.bare (l'.statement filter) := by
  unfold statement
  rw [h.first]
  cases l'.first with
  | comment text => rfl
  | word w =>
    simp only [h.isFiltered_eq]
    split
    · rfl
    · exact h.result_instruction w

/-- Whether a block is open behind the line, if it is read. -/
def leavesOpen (l : SourceLine) (isOpen : Bool) : Bool :=
  if l.first = .comment contextStart then true
  else if l.first = .comment contextEnd then false
  else isOpen

end SourceLine

structure IsRemark (text : String) : Prop where
  ne_start : text ≠ contextStart
  ne_end : text ≠ contextEnd
  content : ∀ h : ContextHeader, h.content? text = none

def SourceLine.Silent (isOpen : Bool) (l : SourceLine) : Prop :=
  match l.first with
  | .word _ => isOpen = true
  | .comment text => if isOpen then IsRemark text else text ≠ contextStart

namespace OpenBlock

theorem seen_eq_iff (b b' : OpenBlock) : b.seen v = b'.seen v ↔
    v.number b.start = v.number b'.start ∧ b.gate = b'.gate ∧ b.targets = b'.targets := by
  simp [OpenBlock.seen]

theorem result_close {b b' : OpenBlock} (h : b.seen v = b'.seen v) :
    v.result ContextBlock.bare b.close = v.result ContextBlock.bare b'.close := by
  obtain ⟨start, gate, targets, body⟩ := b
  obtain ⟨start', gate', targets', body'⟩ := b'
  obtain ⟨hstart, rfl, rfl⟩ := (seen_eq_iff _ _).mp h
  cases gate with
  | none => simp [close, PlaceView.result, ScriptError.seen, hstart]
  | some gate =>
    cases targets with
    | none => simp [close, PlaceView.result, ScriptError.seen, hstart]
    | some targets => rfl

/-- Of a line in a block only its first token can be seen. -/
theorem seen_addLine {b b' : OpenBlock} (h : b.seen v = b'.seen v) {l l' : SourceLine}
    (hfirst : l.first = l'.first) : (b.addLine l).seen v = (b'.addLine l').seen v := by
  obtain ⟨start, gate, targets, body⟩ := b
  obtain ⟨start', gate', targets', body'⟩ := b'
  obtain ⟨hstart, rfl, rfl⟩ := (seen_eq_iff _ _).mp h
  unfold addLine
  rw [hfirst]
  cases l'.first with
  | word w => simp [OpenBlock.seen, hstart]
  | comment text =>
    dsimp only
    cases ContextHeader.gate.content? text with
    | some content => simp [OpenBlock.seen, hstart]
    | none => cases ContextHeader.targets.content? text <;> simp [OpenBlock.seen, hstart]

/-- A line that says nothing goes to the body. -/
theorem seen_addLine_of_silent (b : OpenBlock) {l : SourceLine} (h : l.Silent true) :
    (b.addLine l).seen v = b.seen v := by
  unfold SourceLine.Silent at h
  unfold addLine
  split
  · rfl
  · rename_i text hfirst
    have hremark : IsRemark text := by simpa [hfirst] using h
    rw [hremark.content .gate, hremark.content .targets]
    rfl

end OpenBlock

namespace ReaderState

variable {s s' : ReaderState} {l l' : SourceLine}

theorem step_outside (done : List ProgramLine) (h : l.first ≠ .comment contextStart) :
    step filter ⟨done, none⟩ l =
      (l.statement filter).map fun u => ⟨⟨l.number, u⟩ :: done, none⟩ := by
  simp only [step, if_neg h]
  cases l.statement filter <;> rfl

theorem step_closing (done : List ProgramLine) (b : OpenBlock)
    (h : l.first = .comment contextEnd) : step filter ⟨done, some b⟩ l =
      b.close.map fun block => ⟨⟨b.start, .context block⟩ :: done, none⟩ := by
  simp only [step, if_pos h]
  cases b.close <;> rfl

/-- Readers that look the same take lines that are alike to readers that look the same. -/
theorem result_step (hs : s.seen v = s'.seen v) (hl : l.Alike v l') :
    v.result (·.seen v) (step filter s l) = v.result (·.seen v) (step filter s' l') := by
  obtain ⟨done, block⟩ := s
  obtain ⟨done', block'⟩ := s'
  obtain ⟨hdone, hblock⟩ : seenLines v done = seenLines v done' ∧
      block.map (·.seen v) = block'.map (·.seen v) := by simpa [ReaderState.seen] using hs
  have hcons {d d' : ProgramLine} (hd : d.seen v = d'.seen v) :
      (⟨d :: done, none⟩ : ReaderState).seen v = (⟨d' :: done', none⟩ : ReaderState).seen v :=
    congrArg (ReaderState.mk · none) (seenLines_cons hd hdone)
  have hopen {b b' : OpenBlock} (hb : b.seen v = b'.seen v) :
      (⟨done, some b⟩ : ReaderState).seen v = (⟨done', some b'⟩ : ReaderState).seen v :=
    congrArg₂ ReaderState.mk hdone (congrArg some hb)
  cases block with
  | none =>
    obtain rfl : block' = none := by simpa using hblock.symm
    by_cases hstart : l.first = .comment contextStart
    · have hstart' : l'.first = .comment contextStart := hl.first ▸ hstart
      simp only [step, if_pos hstart, if_pos hstart']
      exact congrArg Except.ok (hopen (by simp [OpenBlock.seen, OpenBlock.begin, hl.number]))
    · have hstart' : l'.first ≠ .comment contextStart := hl.first ▸ hstart
      rw [step_outside done hstart, step_outside done' hstart']
      refine PlaceView.result_map (hl.result_statement filter) fun u u' hbare => hcons ?_
      exact congrArg₂ ProgramLine.mk hl.number hbare
  | some b =>
    obtain ⟨b', rfl, hb⟩ : ∃ b', block' = some b' ∧ b'.seen v = b.seen v := by
      simpa using hblock.symm
    by_cases hend : l.first = .comment contextEnd
    · have hend' : l'.first = .comment contextEnd := hl.first ▸ hend
      rw [step_closing done b hend, step_closing done' b' hend']
      refine PlaceView.result_map (OpenBlock.result_close hb.symm) fun c c' hbare => hcons ?_
      exact congrArg₂ ProgramLine.mk (congrArg OpenBlock.start hb.symm)
        (congrArg Statement.context hbare)
    · have hend' : l'.first ≠ .comment contextEnd := hl.first ▸ hend
      simp only [step, hl.first, if_neg hend']
      split
      · simp [PlaceView.result, ScriptError.seen, hl.number]
      · exact congrArg Except.ok (hopen (OpenBlock.seen_addLine hb.symm hl.first))

/-- A line that says nothing leaves the reader looking as it did. -/
theorem exists_step_of_silent (v : PlaceView) (filter : Option LineFilter)
    (h : l.Silent s.openBlock.isSome) :
    ∃ t, step filter s l = .ok t ∧ t.seen v = s.seen v := by
  obtain ⟨done, _ | b⟩ := s
  · cases hfirst : l.first with
    | word w => exact absurd h (by simp [SourceLine.Silent, hfirst])
    | comment text =>
      have hne : text ≠ contextStart := by simpa [SourceLine.Silent, hfirst] using h
      refine ⟨⟨⟨l.number, .comment text⟩ :: done, none⟩, ?_, rfl⟩
      simp [step, SourceLine.statement, hfirst, hne]
  · have hne : l.first ≠ .comment contextEnd ∧ l.first ≠ .comment contextStart := by
      cases hfirst : l.first with
      | word w => simp
      | comment text =>
        have hremark : IsRemark text := by simpa [SourceLine.Silent, hfirst] using h
        exact ⟨by simpa using hremark.ne_end, by simpa using hremark.ne_start⟩
    refine ⟨⟨done, some (b.addLine l)⟩, by simp [step, hne], ?_⟩
    exact congrArg (ReaderState.mk _ <| some ·) (b.seen_addLine_of_silent h)

theorem isSome_openBlock_of_step (h : step filter s l = .ok s') :
    s'.openBlock.isSome = l.leavesOpen s.openBlock.isSome := by
  cases step_eq_ok_iff.mp h with
  | opening hopen => simp [SourceLine.leavesOpen, hopen]
  | statement hne => simp [SourceLine.leavesOpen, hne]
  | closing hend =>
    have hmarkers : contextEnd ≠ contextStart := by decide
    simp [SourceLine.leavesOpen, hend, hmarkers]
  | inside hend hstart => simp [SourceLine.leavesOpen, hend, hstart]

end ReaderState

/-- The second script has the lines of the first, but for lines that say nothing where they stand.
Whether a block is open at the first line is given. -/
inductive Relaid (v : PlaceView) : Bool → List SourceLine → List SourceLine → Prop where
  | nil (isOpen : Bool) : Relaid v isOpen [] []
  | line {isOpen : Bool} {l l' : SourceLine} {ls ls' : List SourceLine} (hl : l.Alike v l')
    (h : Relaid v (l.leavesOpen isOpen) ls ls') : Relaid v isOpen (l :: ls) (l' :: ls')
  | added {isOpen : Bool} {l : SourceLine} {ls ls' : List SourceLine} (hl : l.Silent isOpen)
    (h : Relaid v isOpen ls ls') : Relaid v isOpen ls (l :: ls')
  | removed {isOpen : Bool} {l : SourceLine} {ls ls' : List SourceLine} (hl : l.Silent isOpen)
    (h : Relaid v isOpen ls ls') : Relaid v isOpen (l :: ls) ls'

namespace Relaid

theorem refl (v : PlaceView) (isOpen : Bool) (ls : List SourceLine) : Relaid v isOpen ls ls := by
  induction ls generalizing isOpen with
  | nil => exact .nil isOpen
  | cons l ls ih => exact .line (.refl v l) (ih _)

variable {isOpen : Bool} {ls ls' : List SourceLine}

/-- The readers of both scripts look the same all along. -/
theorem result_foldlM (h : Relaid v isOpen ls ls') (filter : Option LineFilter)
    {s s' : ReaderState} (hs : s.seen v = s'.seen v) (hopen : s.openBlock.isSome = isOpen) :
    v.result (·.seen v) (ls.foldlM (ReaderState.step filter) s) =
      v.result (·.seen v) (ls'.foldlM (ReaderState.step filter) s') := by
  have hsame {t t' : ReaderState} (ht : t.seen v = t'.seen v) :
      t.openBlock.isSome = t'.openBlock.isSome := by
    simpa [ReaderState.seen] using congrArg (·.openBlock.isSome) ht
  induction h generalizing s s' with
  | nil => exact congrArg Except.ok hs
  | line hl _ ih =>
    rw [List.foldlM_cons, List.foldlM_cons]
    refine PlaceView.result_bind (ReaderState.result_step hs hl) fun t t' ht hlike => ?_
    exact ih hlike (by rw [ReaderState.isSome_openBlock_of_step ht, hopen])
  | @added isOpen l ls ls' hl _ ih =>
    have hsilent : l.Silent s'.openBlock.isSome := by rwa [← hsame hs, hopen]
    obtain ⟨t, ht, hlook⟩ := ReaderState.exists_step_of_silent v filter hsilent
    rw [List.foldlM_cons, ht]
    exact ih (hs.trans hlook.symm) hopen
  | @removed isOpen l ls ls' hl _ ih =>
    have hsilent : l.Silent s.openBlock.isSome := by rwa [hopen]
    obtain ⟨t, ht, hlook⟩ := ReaderState.exists_step_of_silent v filter hsilent
    rw [List.foldlM_cons, ht]
    exact ih (hlook.trans hs) ((hsame hlook).trans hopen)

end Relaid

theorem ReaderState.result_finish {s s' : ReaderState} (h : s.seen v = s'.seen v) :
    v.result (·.seen v) s.finish = v.result (·.seen v) s'.finish := by
  obtain ⟨done, block⟩ := s
  obtain ⟨done', block'⟩ := s'
  obtain ⟨hdone, hblock⟩ : seenLines v done = seenLines v done' ∧
      block.map (·.seen v) = block'.map (·.seen v) := by simpa [ReaderState.seen] using h
  cases block with
  | none =>
    obtain rfl : block' = none := by simpa using hblock.symm
    simp [finish, PlaceView.result, Program.seen, seenLines_reverse, hdone]
  | some b =>
    obtain ⟨b', rfl, hb⟩ : ∃ b', block' = some b' ∧ b'.seen v = b.seen v := by
      simpa using hblock.symm
    have hstart : v.number b'.start = v.number b.start := congrArg OpenBlock.start hb
    simp [finish, PlaceView.result, ScriptError.seen, hstart]

/-- The programs of both scripts look the same, or none has a program for the same reason. -/
theorem Program.result_ofText {source source' : String}
    (h : Relaid v false (sourceLines source) (sourceLines source')) :
    v.result (·.seen v) (Program.ofText filter source) =
      v.result (·.seen v) (Program.ofText filter source') := by
  have hbind (ls : List SourceLine) : Program.ofLines filter ls =
      ls.foldlM (ReaderState.step filter) .start >>= ReaderState.finish := by
    unfold ofLines
    cases ls.foldlM (ReaderState.step filter) .start <;> rfl
  have hrun := h.result_foldlM filter (Eq.refl (ReaderState.start.seen v)) rfl
  rw [ofText, ofText, hbind, hbind]
  exact PlaceView.result_bind hrun fun _ _ _ hlike => ReaderState.result_finish hlike

end Reading

section Assembling

variable {v : PlaceView} {w : Wiring}

theorem Wiring.result_qubit {n n' : Nat} (h : v.number n = v.number n') (label : String) :
    v.result id (w.qubit n label) = v.result id (w.qubit n' label) := by
  unfold qubit
  split
  · rfl
  · simp [PlaceView.result, ScriptError.seen, h]

theorem Mnemonic.result_gateAt {n n' : Nat} (h : v.number n = v.number n') (m : Mnemonic) :
    v.result id (m.gateAt n) = v.result id (m.gateAt n') := by
  unfold gateAt
  split
  · rfl
  · simp [PlaceView.result, ScriptError.seen, h]

theorem ContextBlock.result_decode {n n' : Nat} (h : v.number n = v.number n') (b : ContextBlock) :
    v.result id (b.decode n) = v.result id (b.decode n') := by
  unfold decode
  split
  · simp [PlaceView.result, ScriptError.seen, h]
  · split <;> simp [PlaceView.result, ScriptError.seen, h]

theorem Wiring.result_mapM_qubit {n n' : Nat} (h : v.number n = v.number n')
    (labels : List String) :
    v.result id (labels.mapM (w.qubit n)) = v.result id (labels.mapM (w.qubit n')) := by
  induction labels with
  | nil => rfl
  | cons label labels ih =>
    rw [List.mapM_cons, List.mapM_cons]
    exact PlaceView.result_bind_same (w.result_qubit h label) fun q =>
      PlaceView.result_bind_same ih fun qs => rfl

/-- The operation of a statement depends on its line only for the place of errors. -/
theorem Statement.result_operation? {n n' : Nat} (h : v.number n = v.number n') (s : Statement) :
    v.result id (s.operation? w n) = v.result id (s.operation? w n') := by
  cases s with
  | gate m label =>
    refine PlaceView.result_bind_same (m.result_gateAt h) fun g => ?_
    exact PlaceView.result_bind_same (w.result_qubit h label) fun q => rfl
  | coupled m name =>
    refine PlaceView.result_bind_same rfl fun (a, b) => ?_
    refine PlaceView.result_bind_same (m.result_gateAt h) fun g => ?_
    refine PlaceView.result_bind_same (w.result_qubit h a) fun p => ?_
    exact PlaceView.result_bind_same (w.result_qubit h b) fun q => rfl
  | measure labels => exact PlaceView.result_bind_same (w.result_mapM_qubit h labels) fun qs => rfl
  | idle label ns => exact PlaceView.result_bind_same (w.result_qubit h label) fun q => rfl
  | context b =>
    refine PlaceView.result_bind_same (b.result_decode h) fun (d, label) => ?_
    exact PlaceView.result_bind_same (w.result_qubit h label) fun q => rfl
  | _ => rfl

theorem Statement.operation?_bare (s : Statement) (n : Nat) :
    s.bare.operation? w n = s.operation? w n := by
  cases s <;> rfl

theorem Statement.isBarrier_bare (s : Statement) : s.bare.isBarrier = s.isBarrier := by
  cases s <;> rfl

/-- Lines that look the same do the same to the moments. -/
theorem Assembly.result_step {d d' : ProgramLine} (h : d.seen v = d'.seen v) (s : Assembly) :
    v.result id (Assembly.step w s d) = v.result id (Assembly.step w s d') := by
  have hnumber : v.number d.number = v.number d'.number := congrArg ProgramLine.number h
  have hbare : d.statement.bare = d'.statement.bare := congrArg ProgramLine.statement h
  have hbarrier : d.statement.isBarrier = d'.statement.isBarrier := by
    rw [← Statement.isBarrier_bare, hbare, Statement.isBarrier_bare]
  have hop : v.result id (d.statement.operation? w d.number) =
      v.result id (d'.statement.operation? w d'.number) := by
    rw [← Statement.operation?_bare, hbare, Statement.operation?_bare]
    exact Statement.result_operation? hnumber _
  unfold step
  rw [hbarrier]
  split
  · rfl
  · exact PlaceView.result_bind_same hop fun found => rfl

/-- What does not speak changes no moment. -/
theorem Assembly.foldlM_filter_speaks (ds : List ProgramLine) (s : Assembly) :
    (ds.filter (·.statement.speaks)).foldlM (Assembly.step w) s =
      ds.foldlM (Assembly.step w) s := by
  induction ds generalizing s with
  | nil => rfl
  | cons d ds ih =>
    rw [List.filter_cons]
    split
    · rw [List.foldlM_cons, List.foldlM_cons]
      exact congrArg (Assembly.step w s d >>= ·) (funext ih)
    · rename_i hsilent
      obtain ⟨hop, hbarrier⟩ : d.statement.isOperation = false ∧ d.statement.isBarrier = false := by
        simpa [Statement.speaks] using hsilent
      rw [List.foldlM_cons, step_of_not_isOperation hbarrier hop, ih]
      rfl

/-- Programs that look the same have the same circuit, or none for the same reason. -/
theorem Program.result_assemble {p p' : Program} (h : p.seen v = p'.seen v) :
    v.result id (p.assemble w) = v.result id (p'.assemble w) := by
  have hlines : List.Forall₂ (fun d d' : ProgramLine => d.seen v = d'.seen v)
      (p.lines.filter (·.statement.speaks)) (p'.lines.filter (·.statement.speaks)) :=
    List.forall₂_map_right_iff.mp (List.forall₂_map_left_iff.mp
      (List.forall₂_eq_eq_eq ▸ congrArg Program.lines h))
  have hrun : v.result id (p.lines.foldlM (Assembly.step w) .start) =
      v.result id (p'.lines.foldlM (Assembly.step w) .start) := by
    rw [← Assembly.foldlM_filter_speaks, ← Assembly.foldlM_filter_speaks p'.lines]
    refine PlaceView.result_foldlM (fun d d' s t hd hs => ?_) hlines rfl
    obtain rfl : s = t := hs
    exact Assembly.result_step hd s
  have hmap (q : Program) : q.assemble w =
      (q.lines.foldlM (Assembly.step w) .start).map Assembly.finish := by
    unfold assemble
    cases q.lines.foldlM (Assembly.step w) .start <;> rfl
  rw [hmap, hmap]
  exact PlaceView.result_map hrun fun s t hst => congrArg Assembly.finish hst

theorem Program.usesCouplers_seen (p : Program) : (p.seen v).usesCouplers = p.usesCouplers := by
  have hline (d : ProgramLine) :
      (d.statement.speaks && (d.seen v).statement.isCoupled) = d.statement.isCoupled := by
    rw [ProgramLine.seen]
    cases d.statement <;> rfl
  simp only [usesCouplers, Program.seen, seenLines, List.any_map, List.any_filter,
    Function.comp_def, hline]

/-- Scripts with the same lines but for silent ones have the same circuit, or none for the same
reason. -/
theorem Relaid.ofScript {source source' : String}
    (h : Relaid v false (sourceLines source) (sourceLines source')) (w : Wiring)
    (filter : Option LineFilter) :
    (Circuit.ofScript w filter source).mapError (·.seen v) =
      (Circuit.ofScript w filter source').mapError (·.seen v) := by
  rw [← PlaceView.result_id, ← PlaceView.result_id]
  refine PlaceView.result_bind (Program.result_ofText h) fun p p' _ hp => ?_
  rw [← p.usesCouplers_seen (v := v), hp, p'.usesCouplers_seen]
  split
  · rfl
  · exact Program.result_assemble hp

end Assembling
end PulseScript
