import Mathlib
import PulseScript.Proofs.Lexing

/-!
# Every line of a script is read once

A script is read in stretches of lines: a line outside of blocks by itself, and the lines of a block
together, from its start marker to the first end marker behind. A reader that has taken some lines
has read stretches of them, and is either behind the last one or inside a block. So a program that
is read accounts for every line, and where no program is read, the lines before the place of the
error make one.
-/
namespace PulseScript

namespace SourceLine

structure Unmarked (l : SourceLine) : Prop where
  ne_start : l.first ≠ .comment contextStart
  ne_end : l.first ≠ .comment contextEnd

def content? (h : ContextHeader) (l : SourceLine) : Option String :=
  match l.first with
  | .word _ => none
  | .comment text => h.content? text

def isHeader (l : SourceLine) : Bool :=
  (l.content? .gate).isSome || (l.content? .targets).isSome

end SourceLine

/-- The contents of the headers of a kind, in the order of their lines. -/
def contents (h : ContextHeader) (ls : List SourceLine) : List String :=
  ls.filterMap (SourceLine.content? h)

/-- The texts of the lines that are no headers. -/
def bodyTexts (ls : List SourceLine) : List String :=
  (ls.filter fun l => !l.isHeader).map (·.text)

/-- No comment is a header of both kinds. -/
theorem ContextHeader.content?_targets_of_gate {comment s : String}
    (h : gate.content? comment = some s) : targets.content? comment = none := by
  have hgate : gate.opening.toList = ['#', ' ', 'G', 'a', 't', 'e', ':', ' '] := by decide
  have htargets : targets.opening.toList =
      ['#', ' ', 'T', 'a', 'r', 'g', 'e', 't', 's', ':', ' '] := by decide
  simp only [content?, hgate, htargets] at h ⊢
  split at h
  · rename_i hprefix
    obtain ⟨cs, hcs⟩ := List.isPrefixOf_iff_prefix.mp hprefix
    rw [← hcs, if_neg]
    simp
  · cases h

/-- A block keeps the last header of each kind, and every other line. -/
theorem OpenBlock.foldl_addLine_begin (n : Nat) (ls : List SourceLine) :
    ls.foldl addLine (begin n) = ⟨n, (contents .gate ls).getLast?, (contents .targets ls).getLast?,
      (bodyTexts ls).reverse⟩ := by
  induction ls using List.reverseRecOn with
  | nil => rfl
  | append_singleton ls l ih =>
    have hcontents (h : ContextHeader) :
        contents h (ls ++ [l]) = contents h ls ++ (l.content? h).toList := by
      simp only [contents, List.filterMap_append]
      cases hl : l.content? h <;> simp [hl]
    have htexts : bodyTexts (ls ++ [l]) =
        bodyTexts ls ++ if l.isHeader then [] else [l.text] := by
      simp only [bodyTexts, List.filter_append, List.map_append]
      cases hl : l.isHeader <;> simp [hl]
    rw [List.foldl_concat, ih, hcontents, hcontents, htexts, addLine]
    cases hfirst : l.first with
    | word w => simp [SourceLine.content?, SourceLine.isHeader, hfirst]
    | comment text =>
      cases hgate : ContextHeader.gate.content? text with
      | some gate =>
        have htargets := ContextHeader.content?_targets_of_gate hgate
        simp [SourceLine.content?, SourceLine.isHeader, hfirst, hgate, htargets]
      | none =>
        cases htargets : ContextHeader.targets.content? text <;>
          simp [SourceLine.content?, SourceLine.isHeader, hfirst, hgate, htargets]

namespace OpenBlock

variable {b : OpenBlock} {c : ContextBlock} {e : ScriptError}

theorem close_eq_ok_iff : b.close = .ok c ↔ ∃ gate targets,
    b.gate = some gate ∧ b.targets = some targets ∧ ⟨gate, targets, b.body.reverse⟩ = c := by
  unfold close
  cases b.gate <;> cases b.targets <;> simp

theorem close_eq_error_iff : b.close = .error e ↔
    (b.gate = none ∧ e = .invalidContext b.start (.missingHeader .gate)) ∨
    (b.gate ≠ none ∧ b.targets = none ∧
      e = .invalidContext b.start (.missingHeader .targets)) := by
  unfold close
  cases b.gate <;> cases b.targets <;> simp [eq_comm]

end OpenBlock

inductive Stretch (filter : Option LineFilter) : List SourceLine → ProgramLine → Prop where
  | line {l : SourceLine} {u : Statement} (hl : l.first ≠ .comment contextStart)
    (hu : l.statement filter = .ok u) : Stretch filter [l] ⟨l.number, u⟩
  | block {start stop : SourceLine} {inner : List SourceLine} {gate targets : String}
    (hstart : start.first = .comment contextStart) (hinner : ∀ l ∈ inner, l.Unmarked)
    (hstop : stop.first = .comment contextEnd) (hgate : (contents .gate inner).getLast? = some gate)
    (htargets : (contents .targets inner).getLast? = some targets) :
    Stretch filter (start :: (inner ++ [stop]))
      ⟨start.number, .context ⟨gate, targets, bodyTexts inner⟩⟩

/-- The lines are stretches one after the other that are read as the statements. -/
def ReadAs (filter : Option LineFilter) (ls : List SourceLine) (ds : List ProgramLine) : Prop :=
  ∃ parts : List (List SourceLine), ls = parts.flatten ∧ List.Forall₂ (Stretch filter) parts ds

variable {filter : Option LineFilter} {ls part : List SourceLine} {ds done : List ProgramLine}
  {d : ProgramLine} {s s' : ReaderState} {l : SourceLine} {e : ScriptError}

theorem ReadAs.nil : ReadAs filter [] [] := ⟨[], rfl, .nil⟩

theorem ReadAs.concat (h : ReadAs filter ls ds) (hd : Stretch filter part d) :
    ReadAs filter (ls ++ part) (ds ++ [d]) := by
  obtain ⟨parts, rfl, hparts⟩ := h
  exact ⟨parts ++ [part], by simp, List.rel_append hparts (.cons hd .nil)⟩

namespace ReaderState

/-- The reader has taken the lines: it has read stretches of them, and where a block is open, the
rest are its start marker and the lines inside so far. -/
inductive After (filter : Option LineFilter) : List SourceLine → ReaderState → Prop where
  | outside {ls : List SourceLine} {ds : List ProgramLine} (h : ReadAs filter ls ds) :
    After filter ls ⟨ds.reverse, none⟩
  | inside {ls inner : List SourceLine} {ds : List ProgramLine} {start : SourceLine}
    (h : ReadAs filter ls ds) (hstart : start.first = .comment contextStart)
    (hinner : ∀ l ∈ inner, l.Unmarked) : After filter (ls ++ start :: inner)
      ⟨ds.reverse, some (inner.foldl OpenBlock.addLine (.begin start.number))⟩

theorem After.step (h : After filter ls s) (hs : ReaderState.step filter s l = .ok s') :
    After filter (ls ++ [l]) s' := by
  cases step_eq_ok_iff.mp hs with
  | opening hl =>
    cases h with
    | outside h => exact .inside h hl (by simp)
  | statement hl hu =>
    cases h with
    | outside h =>
      have hnext := After.outside (h.concat (.line hl hu))
      rwa [List.reverse_concat] at hnext
  | closing hl hb =>
    cases h with
    | @inside ls inner ds start h hstart hinner =>
      rw [OpenBlock.foldl_addLine_begin, OpenBlock.close_eq_ok_iff] at hb
      obtain ⟨gate, targets, hgate, htargets, rfl⟩ := hb
      have hnext := After.outside (h.concat (.block hstart hinner hl hgate htargets))
      rw [List.reverse_concat] at hnext
      rw [OpenBlock.foldl_addLine_begin]
      simpa using hnext
  | inside hend hstart' =>
    cases h with
    | @inside ls inner ds start h hstart hinner =>
      have hmore : ∀ k ∈ inner ++ [l], k.Unmarked := by
        rw [List.forall_mem_append]
        exact ⟨hinner, by simpa using ⟨hstart', hend⟩⟩
      have hnext := After.inside h hstart hmore
      rw [List.foldl_concat] at hnext
      simpa using hnext

/-- Inside a block a reader takes lines up to the next marker. -/
theorem foldlM_inner {inner : List SourceLine} (h : ∀ l ∈ inner, l.Unmarked) (b : OpenBlock) :
    inner.foldlM (step filter) ⟨done, some b⟩ =
      .ok ⟨done, some (inner.foldl OpenBlock.addLine b)⟩ := by
  induction inner generalizing b with
  | nil => rfl
  | cons l inner ih =>
    obtain ⟨hl, hinner⟩ := List.forall_mem_cons.mp h
    have hstep : step filter ⟨done, some b⟩ l = .ok ⟨done, some (b.addLine l)⟩ :=
      step_eq_ok_iff.mpr (.inside hl.ne_end hl.ne_start)
    rw [List.foldlM_cons, hstep]
    exact ih hinner _

theorem foldlM_opened {start : SourceLine} {inner : List SourceLine}
    (hstart : start.first = .comment contextStart) (hinner : ∀ l ∈ inner, l.Unmarked) :
    (start :: inner).foldlM (step filter) ⟨done, none⟩ =
      .ok ⟨done, some (inner.foldl OpenBlock.addLine (.begin start.number))⟩ := by
  have hstep : step filter ⟨done, none⟩ start = .ok ⟨done, some (.begin start.number)⟩ :=
    step_eq_ok_iff.mpr (.opening hstart)
  rw [List.foldlM_cons, hstep]
  exact foldlM_inner hinner _

theorem foldlM_stretch (h : Stretch filter part d) :
    part.foldlM (step filter) ⟨done, none⟩ = .ok ⟨d :: done, none⟩ := by
  cases h with
  | @line l u hl hu =>
    have hstep : step filter ⟨done, none⟩ l = .ok ⟨⟨l.number, u⟩ :: done, none⟩ :=
      step_eq_ok_iff.mpr (.statement hl hu)
    rw [List.foldlM_cons, hstep]
    rfl
  | @block start stop inner gate targets hstart hinner hstop hgate htargets =>
    have hclose : (inner.foldl OpenBlock.addLine (.begin start.number)).close =
        .ok ⟨gate, targets, bodyTexts inner⟩ := by
      rw [OpenBlock.foldl_addLine_begin, OpenBlock.close_eq_ok_iff]
      exact ⟨gate, targets, hgate, htargets, by rw [List.reverse_reverse]⟩
    have hstep : step filter ⟨done, some (inner.foldl OpenBlock.addLine (.begin start.number))⟩
        stop = .ok ⟨⟨_, .context ⟨gate, targets, bodyTexts inner⟩⟩ :: done, none⟩ :=
      step_eq_ok_iff.mpr (.closing hstop hclose)
    rw [OpenBlock.foldl_addLine_begin] at hstep
    rw [← List.cons_append, List.foldlM_append, foldlM_opened hstart hinner,
      OpenBlock.foldl_addLine_begin, bind_eq_ok_iff]
    exact ⟨_, rfl, by rw [List.foldlM_cons, hstep]; rfl⟩

/-- A reader takes stretches of lines one statement after the other. -/
theorem foldlM_readAs (h : ReadAs filter ls ds) (done : List ProgramLine) :
    ls.foldlM (step filter) ⟨done, none⟩ = .ok ⟨ds.reverse ++ done, none⟩ := by
  obtain ⟨parts, rfl, hparts⟩ := h
  induction hparts generalizing done with
  | nil => rfl
  | @cons _ d _ ds hd _ ih =>
    rw [List.flatten_cons, List.foldlM_append, foldlM_stretch hd, List.reverse_cons,
      List.append_assoc]
    exact ih _

theorem foldlM_of_after (h : After filter ls s) : ls.foldlM (step filter) start = .ok s := by
  cases h with
  | outside h => simpa [start] using foldlM_readAs h []
  | inside h hstart hinner =>
    have hbefore := foldlM_readAs h []
    rw [List.append_nil] at hbefore
    rw [List.foldlM_append, start, hbefore]
    exact foldlM_opened hstart hinner

/-- The states that a reader is in behind some lines. -/
theorem foldlM_eq_ok_iff : ls.foldlM (step filter) start = .ok s ↔ After filter ls s := by
  refine ⟨fun h => ?_, foldlM_of_after⟩
  induction ls using List.reverseRecOn generalizing s with
  | nil =>
    obtain rfl : start = s := by simpa [pure_eq_ok_iff] using h
    exact .outside .nil
  | append_singleton ls l ih =>
    rw [List.foldlM_append, bind_eq_ok_iff] at h
    obtain ⟨before, hbefore, h⟩ := h
    have hstep : step filter before l = .ok s := by simpa [bind_eq_ok_iff, pure_eq_ok_iff] using h
    exact (ih hbefore).step hstep

end ReaderState

namespace Program

/-- Lines are read as a program if they are stretches that are read as its statements. -/
theorem ofLines_eq_ok_iff {p : Program} : ofLines filter ls = .ok p ↔ ReadAs filter ls p.lines := by
  constructor
  · intro h
    unfold ofLines at h
    split at h
    · cases h
    · rename_i s hs
      cases ReaderState.foldlM_eq_ok_iff.mp hs with
      | outside hread =>
        cases h
        simpa using hread
      | inside => cases h
  · intro h
    have hread := ReaderState.foldlM_readAs h []
    rw [ofLines, ReaderState.start, hread]
    simp [ReaderState.finish]

end Program

inductive SourceLine.Faulty (filter : Option LineFilter) (l : SourceLine) : ScriptError → Prop where
  | unknownMnemonic {w : String} (hl : l.first = .word w) (hfilter : isFiltered filter l = false)
    (hw : ∀ m : Mnemonic, m.text ≠ w) : Faulty filter l (.unknownMnemonic l.number w)
  | malformed {m : Mnemonic} {reason : MalformedReason} (hl : l.first = .word m.text)
    (hfilter : isFiltered filter l = false)
    (hargs : Statement.ofOperands m (wordsOf l.rest) = .error reason) :
    Faulty filter l (.malformed l.number l.text reason)

theorem SourceLine.statement_eq_error_iff :
    l.statement filter = .error e ↔ l.Faulty filter e := by
  constructor
  · intro h
    unfold statement at h
    split at h
    · cases h
    · rename_i w hl
      split at h
      · cases h
      · rename_i hfilter
        have hfilter : isFiltered filter l = false := (Bool.not_eq_true _).mp hfilter
        unfold instruction at h
        split at h
        · cases h
          exact .unknownMnemonic hl hfilter (Mnemonic.ofText?_eq_none_iff.mp ‹_›)
        · rename_i m hm
          obtain rfl := Mnemonic.ofText?_eq_some_iff.mp hm
          split at h
          · cases h
            exact .malformed hl hfilter ‹_›
          · cases h
  · rintro (⟨hl, hfilter, hw⟩ | ⟨hl, hfilter, hargs⟩)
    · rw [statement, hl]
      simp [hfilter, instruction, Mnemonic.ofText?_eq_none_iff.mpr hw]
    · rw [statement, hl]
      simp [hfilter, instruction, Mnemonic.ofText?_text, hargs]

namespace ReaderState

theorem step_outside_eq_error_iff : step filter ⟨done, none⟩ l = .error e ↔
    l.first ≠ .comment contextStart ∧ l.statement filter = .error e := by
  by_cases hstart : l.first = .comment contextStart
  · simp [step, hstart]
  · cases hl : l.statement filter <;> simp [step, hstart, hl]

theorem step_inside_eq_error_iff {b : OpenBlock} : step filter ⟨done, some b⟩ l = .error e ↔
    (l.first = .comment contextEnd ∧ b.close = .error e) ∨
    (l.first = .comment contextStart ∧ .invalidContext l.number .nested = e) := by
  have hne : contextEnd ≠ contextStart := by decide
  by_cases hend : l.first = .comment contextEnd
  · cases hb : b.close <;> simp [step, hend, hb, hne]
  · by_cases hstart : l.first = .comment contextStart
    · simp [step, hstart, hne.symm]
    · simp [step, hstart, hend]

end ReaderState

inductive Opens (filter : Option LineFilter) :
    List SourceLine → SourceLine → List SourceLine → Prop where
  | intro {before inner : List SourceLine} {ds : List ProgramLine} {start : SourceLine}
    (hbefore : ReadAs filter before ds) (hstart : start.first = .comment contextStart)
    (hinner : ∀ l ∈ inner, l.Unmarked) : Opens filter (before ++ start :: inner) start inner

/-- Why lines are no program: the lines before a place are read as statements, and there stands a
line that is no statement, a block with another inside or without one of its headers, or a block
without an end. -/
inductive Refused (filter : Option LineFilter) : List SourceLine → ScriptError → Prop where
  | faulty {before after : List SourceLine} {ds : List ProgramLine} {l : SourceLine}
    {e : ScriptError} (hbefore : ReadAs filter before ds) (hl : l.first ≠ .comment contextStart)
    (hfault : l.Faulty filter e) : Refused filter (before ++ l :: after) e
  | nested {before inner after : List SourceLine} {start l : SourceLine}
    (hopen : Opens filter before start inner) (hl : l.first = .comment contextStart) :
    Refused filter (before ++ l :: after) (.invalidContext l.number .nested)
  | missingGate {before inner after : List SourceLine} {start stop : SourceLine}
    (hopen : Opens filter before start inner) (hstop : stop.first = .comment contextEnd)
    (hgate : contents .gate inner = []) :
    Refused filter (before ++ stop :: after) (.invalidContext start.number (.missingHeader .gate))
  | missingTargets {before inner after : List SourceLine} {start stop : SourceLine}
    (hopen : Opens filter before start inner) (hstop : stop.first = .comment contextEnd)
    (hgate : contents .gate inner ≠ []) (htargets : contents .targets inner = []) :
    Refused filter (before ++ stop :: after)
      (.invalidContext start.number (.missingHeader .targets))
  | unterminated {ls inner : List SourceLine} {start : SourceLine}
    (hopen : Opens filter ls start inner) : Refused filter ls (.unterminatedContext start.number)

/-- Inside a block that is open, a reader has taken its lines. -/
theorem Opens.exists_after {start : SourceLine} {inner : List SourceLine}
    (h : Opens filter ls start inner) : ∃ done, ReaderState.After filter ls
      ⟨done, some ⟨start.number, (contents .gate inner).getLast?,
        (contents .targets inner).getLast?, (bodyTexts inner).reverse⟩⟩ := by
  cases h with
  | intro hbefore hstart hinner =>
    rw [← OpenBlock.foldl_addLine_begin]
    exact ⟨_, .inside hbefore hstart hinner⟩

namespace Program

theorem ofLines_append (before ls : List SourceLine)
    (h : before.foldlM (ReaderState.step filter) .start = .ok s) :
    ofLines filter (before ++ ls) =
      ls.foldlM (ReaderState.step filter) s >>= ReaderState.finish := by
  have hrun : (before ++ ls).foldlM (ReaderState.step filter) .start =
      ls.foldlM (ReaderState.step filter) s := by
    rw [List.foldlM_append, h]
    rfl
  rw [ofLines, hrun]
  cases ls.foldlM (ReaderState.step filter) s <;> rfl

theorem ofLines_eq_error_of_step {before after : List SourceLine}
    (h : ReaderState.After filter before s) (hl : ReaderState.step filter s l = .error e) :
    ofLines filter (before ++ l :: after) = .error e := by
  rw [ofLines_append _ _ (ReaderState.foldlM_of_after h), List.foldlM_cons, hl]
  rfl

/-- A reader that stops at a line has a reason to refuse the script. -/
theorem refused_of_step {before after : List SourceLine} (h : ReaderState.After filter before s)
    (hl : ReaderState.step filter s l = .error e) : Refused filter (before ++ l :: after) e := by
  cases h with
  | outside hbefore =>
    obtain ⟨hfirst, hfault⟩ := ReaderState.step_outside_eq_error_iff.mp hl
    exact .faulty hbefore hfirst (SourceLine.statement_eq_error_iff.mp hfault)
  | inside hbefore hstart hinner =>
    have hopen := Opens.intro hbefore hstart hinner
    rcases ReaderState.step_inside_eq_error_iff.mp hl with ⟨hend, hclose⟩ | ⟨hnested, rfl⟩
    · rw [OpenBlock.foldl_addLine_begin, OpenBlock.close_eq_error_iff] at hclose
      rcases hclose with ⟨hgate, rfl⟩ | ⟨hgate, htargets, rfl⟩
      · exact .missingGate hopen hend (List.getLast?_eq_none_iff.mp hgate)
      · exact .missingTargets hopen hend (mt List.getLast?_eq_none_iff.mpr hgate)
          (List.getLast?_eq_none_iff.mp htargets)
    · exact .nested hopen hnested

theorem ofLines_of_refused (h : Refused filter ls e) : ofLines filter ls = .error e := by
  cases h with
  | faulty hbefore hl hfault =>
    refine ofLines_eq_error_of_step (.outside hbefore) ?_
    exact ReaderState.step_outside_eq_error_iff.mpr
      ⟨hl, SourceLine.statement_eq_error_iff.mpr hfault⟩
  | nested hopen hl =>
    obtain ⟨done, hafter⟩ := hopen.exists_after
    exact ofLines_eq_error_of_step hafter
      (ReaderState.step_inside_eq_error_iff.mpr (.inr ⟨hl, rfl⟩))
  | missingGate hopen hstop hgate =>
    obtain ⟨done, hafter⟩ := hopen.exists_after
    refine ofLines_eq_error_of_step hafter (ReaderState.step_inside_eq_error_iff.mpr ?_)
    refine .inl ⟨hstop, OpenBlock.close_eq_error_iff.mpr (.inl ⟨?_, rfl⟩)⟩
    exact List.getLast?_eq_none_iff.mpr hgate
  | missingTargets hopen hstop hgate htargets =>
    obtain ⟨done, hafter⟩ := hopen.exists_after
    refine ofLines_eq_error_of_step hafter (ReaderState.step_inside_eq_error_iff.mpr ?_)
    refine .inl ⟨hstop, OpenBlock.close_eq_error_iff.mpr (.inr ⟨?_, ?_, rfl⟩)⟩
    · exact mt List.getLast?_eq_none_iff.mp hgate
    · exact List.getLast?_eq_none_iff.mpr htargets
  | unterminated hopen =>
    obtain ⟨done, hafter⟩ := hopen.exists_after
    rw [ofLines, ReaderState.foldlM_of_after hafter]
    rfl

/-- The lines are no program exactly for these reasons. -/
theorem ofLines_eq_error_iff : ofLines filter ls = .error e ↔ Refused filter ls e := by
  refine ⟨fun h => ?_, ofLines_of_refused⟩
  unfold ofLines at h
  split at h
  · cases h
    obtain ⟨before, l, after, s, rfl, hbefore, hl⟩ := exists_split_of_foldlM_eq_error ‹_›
    exact refused_of_step (ReaderState.foldlM_eq_ok_iff.mp hbefore) hl
  · rename_i s hs
    cases ReaderState.foldlM_eq_ok_iff.mp hs with
    | outside => cases h
    | inside hbefore hstart hinner =>
      rw [OpenBlock.foldl_addLine_begin] at h
      cases h
      exact .unterminated (.intro hbefore hstart hinner)

end Program

inductive ProgramLine.Covers (ls : List SourceLine) : ProgramLine → Nat → Prop where
  | own {d : ProgramLine} (h : ∀ b, d.statement ≠ .context b) : Covers ls d d.number
  | block {number n : Nat} {b : ContextBlock} {stop : SourceLine} (hstop : stop ∈ ls)
    (hend : stop.first = .comment contextEnd) (hbehind : number < stop.number)
    (hfirst : ∀ k ∈ ls, k.first = .comment contextEnd → number < k.number →
      stop.number ≤ k.number)
    (hn : number ≤ n) (hn' : n ≤ stop.number) : Covers ls ⟨number, .context b⟩ n

/-- What is no block stands on its own line alone. -/
theorem ProgramLine.covers_own_iff (h : ∀ b, d.statement ≠ .context b) {n : Nat} :
    d.Covers ls n ↔ n = d.number := by
  constructor
  · intro hcovers
    cases hcovers with
    | own => rfl
    | block => exact absurd rfl (h _)
  · rintro rfl
    exact .own h

/-- A block stands on the lines up to the first end marker behind it. -/
theorem ProgramLine.covers_block_iff {number n : Nat} {b : ContextBlock} {stop : SourceLine}
    (hstop : stop ∈ ls) (hend : stop.first = .comment contextEnd) (hbehind : number < stop.number)
    (hfirst : ∀ k ∈ ls, k.first = .comment contextEnd → number < k.number →
      stop.number ≤ k.number) :
    ProgramLine.Covers ls ⟨number, .context b⟩ n ↔ number ≤ n ∧ n ≤ stop.number := by
  constructor
  · intro hcovers
    cases hcovers with
    | own h => exact absurd rfl (h _)
    | block _ _ _ hfirst' hge hle => exact ⟨hge, hle.trans (hfirst' stop hstop hend hbehind)⟩
  · rintro ⟨hge, hle⟩
    exact .block hstop hend hbehind hfirst hge hle

/-- In lines numbered upwards, the lines from one to another are those with a number from the
number of the one to that of the other. -/
theorem mem_block_iff {front inner back : List SourceLine} {start stop : SourceLine}
    (hnumber : (front ++ start :: (inner ++ [stop]) ++ back).Pairwise fun l k =>
      l.number < k.number)
    (hl : l ∈ front ++ start :: (inner ++ [stop]) ++ back) :
    l ∈ start :: (inner ++ [stop]) ↔ start.number ≤ l.number ∧ l.number ≤ stop.number := by
  rw [List.pairwise_append, List.pairwise_append, List.pairwise_cons, List.pairwise_append]
    at hnumber
  obtain ⟨⟨-, ⟨hbehind, -, -, hbefore⟩, hfront⟩, -, hback⟩ := hnumber
  constructor
  · intro hpart
    simp only [List.mem_append, List.mem_cons, List.not_mem_nil, or_false] at hpart
    rcases hpart with rfl | hpart | rfl
    · exact ⟨le_rfl, (hbehind stop (by simp)).le⟩
    · exact ⟨(hbehind l (by simp [hpart])).le, (hbefore l hpart stop (by simp)).le⟩
    · exact ⟨(hbehind l (by simp)).le, le_rfl⟩
  · rintro ⟨hge, hle⟩
    rcases List.mem_append.mp hl with hl | hl
    · refine (List.mem_append.mp hl).resolve_left fun hl => ?_
      exact absurd hge (hfront l hl start (by simp)).not_ge
    · exact absurd hle (hback stop (by simp) l hl).not_ge

/-- The lines that a statement stands on are those of its stretch. -/
theorem Stretch.covers_iff {front back : List SourceLine} (h : Stretch filter part d)
    (hnumber : (front ++ part ++ back).Pairwise fun l k => l.number < k.number)
    (hl : l ∈ front ++ part ++ back) :
    d.Covers (front ++ part ++ back) l.number ↔ l ∈ part := by
  cases h with
  | @line k u hk hu =>
    have hown : ∀ b, u ≠ .context b := by
      rintro b rfl
      exact SourceLine.statement_ne_context hu
    rw [ProgramLine.covers_own_iff hown, List.mem_singleton]
    constructor
    · intro hn
      exact eq_of_pairwise_lt hnumber hl (by simp) hn
    · rintro rfl
      rfl
  | @block start stop inner gate targets hstart hinner hstop hgate htargets =>
    have hbefore : start.number ≤ stop.number :=
      ((mem_block_iff hnumber (by simp)).mp List.mem_cons_self).2
    have hlt : start.number < stop.number := by
      refine lt_of_le_of_ne hbefore fun hsame => ?_
      obtain rfl := eq_of_pairwise_lt hnumber (by simp) (by simp) hsame
      exact absurd (hstart.symm.trans hstop) (by decide)
    rw [mem_block_iff hnumber hl]
    refine ProgramLine.covers_block_iff (by simp) hstop hlt fun k hk hend hafter => ?_
    -- an end marker before that of the block would be inside
    by_contra hless
    have hpart := (mem_block_iff hnumber hk).mpr ⟨hafter.le, (Nat.lt_of_not_le hless).le⟩
    simp only [List.mem_append, List.mem_cons, List.not_mem_nil, or_false] at hpart
    rcases hpart with rfl | hpart | rfl
    · exact lt_irrefl _ hafter
    · exact (hinner k hpart).ne_end hend
    · exact hless le_rfl

/-- Every statement is read from a stretch of the lines. -/
theorem ReadAs.exists_part (h : ReadAs filter ls ds) (hd : d ∈ ds) :
    ∃ front part back, ls = front ++ part ++ back ∧ Stretch filter part d := by
  obtain ⟨parts, rfl, hparts⟩ := h
  obtain ⟨part, hpart, hread⟩ := forall₂_left_of_mem hparts hd
  obtain ⟨front, back, rfl⟩ := List.append_of_mem hpart
  exact ⟨front.flatten, part, back.flatten, by simp, hread⟩

/-- Every line belongs to one of the statements. -/
theorem ReadAs.existsUnique_covers (h : ReadAs filter ls ds)
    (hnumber : ls.Pairwise fun l k => l.number < k.number) (hl : l ∈ ls) :
    ∃! d, d ∈ ds ∧ d.Covers ls l.number := by
  obtain ⟨parts, rfl, hparts⟩ := h
  have hcovers {i : Nat} (hi : i < parts.length) (hi' : i < ds.length) :
      ds[i].Covers parts.flatten l.number ↔ l ∈ parts[i] := by
    have hsplit : parts.flatten =
        (parts.take i).flatten ++ parts[i] ++ (parts.drop (i + 1)).flatten := by
      rw [← List.flatten_concat, List.take_concat_get', ← List.flatten_append,
        List.take_append_drop]
    have hread := (List.forall₂_iff_get.mp hparts).2 i hi hi'
    rw [hsplit] at hnumber hl ⊢
    exact Stretch.covers_iff hread hnumber hl
  have hlength := hparts.length_eq
  obtain ⟨part, hpart, hmem⟩ := List.mem_flatten.mp hl
  obtain ⟨i, hi, rfl⟩ := List.getElem_of_mem hpart
  refine ⟨ds[i], ⟨List.getElem_mem _, (hcovers hi (by omega)).mpr hmem⟩, ?_⟩
  rintro d ⟨hd, hd'⟩
  obtain ⟨j, hj, rfl⟩ := List.getElem_of_mem hd
  have hmem' := (hcovers (by omega) hj).mp hd'
  -- two stretches have no line in common
  have hapart := List.pairwise_iff_getElem.mp (List.pairwise_flatten.mp hnumber).2
  rcases lt_trichotomy i j with hij | rfl | hij
  · exact absurd (hapart i j hi (by omega) hij l hmem l hmem') (lt_irrefl _)
  · rfl
  · exact absurd (hapart j i (by omega) hi hij l hmem' l hmem) (lt_irrefl _)

/-- A program stands on the lines of its script: its statements are at lines with a token, one
further down than the other, and each line with a token is one of exactly one statement. -/
structure Program.StandsOn (p : Program) (source : String) : Prop where
  increasing : p.lines.Pairwise fun d d' => d.number < d'.number
  placed : ∀ d ∈ p.lines, ∃ line, LineAt source d.number line ∧ ∃ c ∈ line, isSeparator c = false
  covered : ∀ n line, LineAt source n line → (∃ c ∈ line, isSeparator c = false) →
    ∃! d, d ∈ p.lines ∧ d.Covers (sourceLines source) n

namespace Program

variable {p : Program} {source : String}

theorem standsOn_of_ofText (h : ofText filter source = .ok p) : p.StandsOn source where
  increasing := pairwise_number h
  placed d hd := by
    obtain ⟨l, hl, hnumber, -⟩ := from_of_ofText h d hd
    obtain ⟨line, hline, hchars⟩ := (mem_sourceLines_iff source l).mp hl
    rw [hnumber]
    exact ⟨line, hline, (SourceLine.exists_ofChars?_iff l.number line).mp ⟨l, hchars⟩⟩
  covered n line hline hc := by
    obtain ⟨l, hl⟩ := (SourceLine.exists_ofChars?_iff n line).mpr hc
    obtain ⟨hnumber, -⟩ := (SourceLine.ofChars?_eq_some_iff n line l).mp hl
    subst hnumber
    have hmem := (mem_sourceLines_iff source l).mpr ⟨line, hline, hl⟩
    exact (ofLines_eq_ok_iff.mp h).existsUnique_covers (pairwise_sourceLines source) hmem

/-- Every line of a script is read once, and errors name the line that they are about. A text is
divided without anything invalid, and the pieces make its numbered lines. They are read as a program
exactly if they are stretches that are read as its statements, which then account for every line,
and a script is refused exactly at the place where its lines go on with no further stretch. -/
theorem ofText_reads_once (filter : Option LineFilter) (source : String) :
    (∃ ls, Lexes source.toList ls) ∧
    (∀ ls, Lexes source.toList ls →
      (∀ text, .invalid text ∉ ls) ∧ lexedLines ls = sourceLines source) ∧
    (∀ l, l ∈ sourceLines source ↔
      ∃ line, LineAt source l.number line ∧ SourceLine.ofChars? l.number line = some l) ∧
    (∀ p, ofText filter source = .ok p ↔ ReadAs filter (sourceLines source) p.lines) ∧
    (∀ p, ofText filter source = .ok p → p.StandsOn source) ∧
    (∀ e, ofText filter source = .error e ↔ Refused filter (sourceLines source) e) :=
  ⟨Lexes.exists_lexes _, fun _ h => ⟨h.invalid_notMem, h.lexedLines_eq⟩, mem_sourceLines_iff source,
    fun _ => ofLines_eq_ok_iff, fun _ => standsOn_of_ofText, fun _ => ofLines_eq_error_iff⟩

/-- A script with a blank line, a block with one, and a remark. -/
def notedBlockText : String :=
  "X q0\n\t\n  # CIRQ_CONTEXT_START\n# Gate: \x7b\x7d\n\n# Targets: []\nX q0 # pulse\n" ++
    "# CIRQ_CONTEXT_END\r\n# note"

theorem ofText_reads_once_notedBlockText : ∃ p, ofText none notedBlockText = .ok p ∧
    p.lines.map (·.number) = [1, 3, 9] ∧
    ∃! d, d ∈ p.lines ∧ d.Covers (sourceLines notedBlockText) 7 := by
  obtain ⟨-, -, -, -, hstands, -⟩ := ofText_reads_once none notedBlockText
  have hsome : ((ofText none notedBlockText).toOption.map fun p => p.lines.map (·.number)) =
      some [1, 3, 9] := by decide +kernel
  obtain ⟨p, hp, hnumbers⟩ := Option.map_eq_some_iff.mp hsome
  have hread := (toOption_eq_some_iff _ _).mp hp
  have hline : LineAt notedBlockText 7 "X q0 # pulse".toList :=
    (lineAt_iff _ _ _).mpr ⟨6, by decide +kernel, rfl⟩
  exact ⟨p, hread, hnumbers, (hstands p hread).covered 7 _ hline ⟨'X', by decide, by decide⟩⟩

end Program
end PulseScript
