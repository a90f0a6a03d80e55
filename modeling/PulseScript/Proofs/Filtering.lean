import Mathlib
import PulseScript.Proofs.LineNumbers
import PulseScript.Proofs.Segments

/-!
# Line filters leave the moments as they are

A filter is accepted only if none of its line starts could be that of a barrier: empty, the word
`B`, or the word with blank space behind it. Whatever a barrier line starts with is of this form,
so no barrier is passed over. A filtered script is then read in step with the unfiltered one: the
same lines, but some instructions are passed over, and the same barriers close the moments, which
can only have lost operations.
-/
namespace PulseScript

/-- A line with the word `B` and at least one more word behind it. -/
def SourceLine.IsBarrier (l : SourceLine) : Prop :=
  l.first = .word Mnemonic.barrier.text ∧ wordsOf l.rest ≠ []

/-- The first of several runs stands behind what divides runs, and more of that follows it. -/
theorem exists_split_of_splitRuns {p : Char → Bool} {cs run : List Char} {runs : List (List Char)}
    (h : splitRuns p cs = run :: runs) (hruns : runs ≠ []) :
    ∃ front c back, cs = front ++ run ++ c :: back ∧ (∀ d ∈ front, p d = true) ∧ p c = true := by
  fun_induction splitRuns p cs generalizing run with
  | case1 => exact absurd h (by simp)
  | case2 c cs hc ih =>
    obtain ⟨front, d, back, rfl, hfront, hd⟩ := ih h
    exact ⟨c :: front, d, back, rfl, List.forall_mem_cons.mpr ⟨hc, hfront⟩, hd⟩
  | case3 c hc => exact absurd (List.cons.inj h).2.symm hruns
  | case4 c hc d cs hd ih =>
    obtain ⟨rfl, -⟩ := List.cons.inj h
    exact ⟨[], d, cs, rfl, by simp, hd⟩
  | case5 c hc d cs hd hnone ih =>
    rw [hnone] at h
    exact absurd (List.cons.inj h).2.symm hruns
  | case6 c hc d cs hd first others hfirst ih =>
    rw [hfirst] at h
    obtain ⟨rfl, rfl⟩ := List.cons.inj h
    obtain ⟨front, e, back, hsplit, hfront, he⟩ := ih hfirst
    -- the run goes on, so nothing stands before it
    cases front with
    | nil => exact ⟨[], e, back, by rw [hsplit]; rfl, by simp, he⟩
    | cons a front =>
      obtain ⟨rfl, -⟩ := List.cons.inj hsplit
      exact absurd (hfront d (by simp)) hd

/-- A line of at least two words starts, behind separators, with the first word and a separator. -/
theorem exists_split_of_lineWords {line : List Char} {w : String} {ws : List String}
    (h : lineWords line = w :: ws) (hws : ws ≠ []) :
    ∃ front c back, line = front ++ w.toList ++ c :: back ∧ (∀ d ∈ front, isSeparator d = true) ∧
      isSeparator c = true := by
  obtain ⟨run, runs, hsplit, rfl, rfl⟩ := List.map_eq_cons_iff.mp h
  obtain ⟨front, c, back, htake, hfront, hc⟩ :=
    exists_split_of_splitRuns hsplit (by simpa using hws)
  refine ⟨front, c, back ++ line.dropWhile (· != '#'), ?_, hfront, hc⟩
  conv_lhs => rw [← List.takeWhile_append_dropWhile (p := (· != '#')) (l := line), htake]
  simp

/-- The text of a line is a part of the line from its first token on. -/
theorem lineText_isPrefix (line : List Char) :
    (lineText line).toList <+: line.dropWhile isSeparator := by
  unfold lineText
  rw [String.toList_ofList]
  split_ifs
  · exact List.prefix_rfl
  · exact List.rdropWhile_prefix isSeparator _

theorem stripWhile_isPrefix {p : Char → Bool} {cs : List Char} (h : ∀ c ∈ cs.head?, p c = false) :
    stripWhile p cs <+: cs := by
  have hdrop : cs.dropWhile p = cs := by
    cases cs with
    | nil => rfl
    | cons c cs => exact List.dropWhile_cons_of_neg (by simpa using h c rfl)
  rw [stripWhile, hdrop]
  exact List.rdropWhile_prefix p cs

theorem isBlank_of_isSeparator {c : Char} (h : isSeparator c = true) : isBlank c = true := by
  simp only [isSeparator, Bool.or_eq_true, beq_iff_eq] at h
  rcases h with (rfl | rfl) | rfl <;> decide

namespace LineFilter

/-- No line start could be that of a barrier. -/
def SparesBarriers (f : LineFilter) : Prop :=
  ∀ start ∈ f.starts, couldStartBarrier start = false

/-- What a text with `B` and blank space behind it starts with could start a barrier. -/
theorem couldStartBarrier_of_isPrefix {start : String} {c : Char} {cs : List Char}
    (hc : isBlank c = true) (h : start.toList <+: 'B' :: c :: cs) :
    couldStartBarrier start = true := by
  unfold couldStartBarrier
  rcases List.prefix_cons_iff.mp h with hnil | ⟨rest, hstart, hrest⟩
  · rw [hnil]
  · rw [hstart]
    rcases List.prefix_cons_iff.mp hrest with rfl | ⟨more, rfl, -⟩
    · rfl
    · simpa using hc

theorem sparesBarriers_of_make {starts : List String} {f : LineFilter}
    (h : make starts = .ok f) : f.SparesBarriers := by
  unfold make at h
  cases hfind : barrierStart? starts with
  | some start => exact absurd h (by simp [hfind])
  | none =>
    obtain rfl : (⟨starts⟩ : LineFilter) = f := by simpa [hfind] using h
    simpa [barrierStart?, SparesBarriers] using hfind

/-- An accepted filter passes over no line whose text starts with `B` and blank space. -/
theorem SparesBarriers.ignores_eq_false {f : LineFilter} (hf : f.SparesBarriers) {text : String}
    {c : Char} {cs : List Char} (hc : isBlank c = true) (h : text.toList <+: 'B' :: c :: cs) :
    f.ignores text = false := by
  have hhead : ∀ d ∈ text.toList.head?, isBlank d = false := by
    intro d hd
    rcases List.prefix_cons_iff.mp h with hnil | ⟨rest, htext, -⟩
    · exact absurd hd (by simp [hnil])
    · obtain rfl : 'B' = d := by simpa [htext] using hd
      decide
  rw [ignores, List.any_eq_false]
  intro start hstart hprefix
  have hstripped := (List.isPrefixOf_iff_prefix.mp hprefix).trans (stripWhile_isPrefix hhead)
  exact absurd (couldStartBarrier_of_isPrefix hc (hstripped.trans h)) (by simp [hf start hstart])

end LineFilter

/-- What a line of a script holds is read from its characters. -/
theorem exists_of_mem_sourceLines {source : String} {l : SourceLine} (h : l ∈ sourceLines source) :
    ∃ line, l.text = lineText line ∧ lineTokens line = l.first :: l.rest := by
  obtain ⟨⟨line, n⟩, -, hl⟩ := List.mem_filterMap.mp h
  obtain ⟨-, htext, htokens⟩ := (SourceLine.ofChars?_eq_some_iff n line l).mp hl
  exact ⟨line, htext, htokens⟩

section Filtered

variable {f : LineFilter} {source : String} {l : SourceLine}

/-- A barrier line outside of blocks is read as a barrier, whatever the filter. -/
theorem SourceLine.statement_of_isBarrier (hf : f.SparesBarriers) (hl : l ∈ sourceLines source)
    (h : l.IsBarrier) : l.statement (some f) = .ok (.barrier (wordsOf l.rest)) := by
  obtain ⟨hfirst, hagents⟩ := h
  obtain ⟨line, htext, htokens⟩ := exists_of_mem_sourceLines hl
  have hwords : lineWords line = Mnemonic.barrier.text :: wordsOf l.rest := by
    rw [← wordsOf_lineTokens, htokens, hfirst]
    rfl
  -- behind separators the line goes on with the word and a separator
  obtain ⟨front, c, back, hline, hfront, hc⟩ := exists_split_of_lineWords hwords hagents
  have hstart : line.dropWhile isSeparator = 'B' :: c :: back := by
    rw [hline, List.append_assoc, List.dropWhile_append_of_pos hfront]
    rfl
  have hkept : isFiltered (some f) l = false := by
    have hprefix := lineText_isPrefix line
    rw [hstart, ← htext] at hprefix
    exact hf.ignores_eq_false (isBlank_of_isSeparator hc) hprefix
  obtain ⟨agent, agents, hlist⟩ := List.exists_cons_of_ne_nil hagents
  rw [SourceLine.statement, hfirst]
  simp only [hkept, Bool.false_eq_true, if_false, SourceLine.instruction,
    Mnemonic.ofText?_text, hlist]
  rfl

inductive Statement.Thinned : Statement → Statement → Prop where
  | same (s : Statement) : Thinned s s
  | gate (m : Mnemonic) (qubit text : String) : Thinned (.gate m qubit) (.ignored text)
  | coupled (m : Mnemonic) (coupler text : String) : Thinned (.coupled m coupler) (.ignored text)
  | measure (qubits : List String) (text : String) : Thinned (.measure qubits) (.ignored text)
  | idle (qubit : String) (ns : UInt64) (text : String) : Thinned (.idle qubit ns) (.ignored text)

structure ProgramLine.Thinned (l l' : ProgramLine) : Prop where
  number : l'.number = l.number
  statement : l.statement.Thinned l'.statement

/-- What operands make is a barrier or can be passed over. -/
theorem Statement.thinned_of_ofOperands {m : Mnemonic} {args : List String} {s : Statement}
    (h : Statement.ofOperands m args = .ok s) (text : String) :
    s.Thinned (.ignored text) ∨ m = .barrier ∧ args ≠ [] := by
  unfold Statement.ofOperands at h
  split at h
  case h_1 => cases h; exact .inl (.gate _ _ _)
  case h_3 => cases h; exact .inl (.coupled _ _ _)
  case h_6 => cases h; exact .inl (.measure _ _)
  case h_8 hm hne =>
    refine .inr ⟨?_, hne⟩
    cases m <;> first | rfl | exact absurd hm (by decide)
  case h_9 =>
    split at h
    · cases h; exact .inl (.idle _ _ _)
    · cases h
  all_goals cases h

/-- A line that is read without a filter is read with it, too, or passed over. -/
theorem SourceLine.exists_statement_thinned (hf : f.SparesBarriers) (hl : l ∈ sourceLines source)
    {s : Statement} (h : l.statement none = .ok s) :
    ∃ s', l.statement (some f) = .ok s' ∧ s.Thinned s' := by
  cases hfirst : l.first with
  | comment text =>
    rw [statement, hfirst] at h ⊢
    exact ⟨s, h, .same s⟩
  | word w =>
    have hinstruction : l.instruction w = .ok s := by
      simpa [statement, hfirst, isFiltered] using h
    cases hskip : isFiltered (some f) l with
    | false => exact ⟨s, by rw [statement, hfirst]; simpa [hskip] using hinstruction, .same s⟩
    | true =>
      have hignored : l.statement (some f) = .ok (.ignored l.text) := by
        simp [statement, hfirst, hskip]
      refine ⟨_, hignored, ?_⟩
      obtain ⟨m, hm, hs⟩ : ∃ m, Mnemonic.ofText? w = some m ∧
          Statement.ofOperands m (wordsOf l.rest) = .ok s := by
        unfold instruction at hinstruction
        split at hinstruction
        · cases hinstruction
        · split at hinstruction <;> cases hinstruction
          exact ⟨_, ‹_›, ‹_›⟩
      rcases Statement.thinned_of_ofOperands hs l.text with hthin | ⟨rfl, hagents⟩
      · exact hthin
      · -- a barrier is not passed over
        have hw : Mnemonic.barrier.text = w := by
          simpa [Mnemonic.ofText?] using List.find?_some hm
        have hread := statement_of_isBarrier hf hl ⟨hw ▸ hfirst, hagents⟩
        exact absurd (hignored.symm.trans hread) (by simp)

structure ReaderState.Thinned (s s' : ReaderState) : Prop where
  done : List.Forall₂ ProgramLine.Thinned s.done s'.done
  openBlock : s'.openBlock = s.openBlock

/-- Line after line the two readers stay in step: what belongs to a block is no instruction. -/
theorem ReaderState.Thinned.step (hf : f.SparesBarriers) (hl : l ∈ sourceLines source)
    {s s' t : ReaderState} (h : s.Thinned s') (hs : ReaderState.step none s l = .ok t) :
    ∃ t', ReaderState.step (some f) s' l = .ok t' ∧ t.Thinned t' := by
  obtain ⟨done', block⟩ := s'
  obtain ⟨hdone, hblock⟩ := h
  cases step_eq_ok_iff.mp hs with
  | opening hopen =>
    obtain rfl : block = none := hblock
    exact ⟨_, step_eq_ok_iff.mpr (.opening hopen), hdone, rfl⟩
  | statement hopen hu =>
    obtain rfl : block = none := hblock
    obtain ⟨u', hu', hthin⟩ := SourceLine.exists_statement_thinned hf hl hu
    exact ⟨_, step_eq_ok_iff.mpr (.statement hopen hu'), .cons ⟨rfl, hthin⟩ hdone, rfl⟩
  | @closing done b closed hend hb =>
    obtain rfl : block = some b := hblock
    exact ⟨_, step_eq_ok_iff.mpr (.closing hend hb), .cons ⟨rfl, .same _⟩ hdone, rfl⟩
  | @inside done b hend hopen =>
    obtain rfl : block = some b := hblock
    exact ⟨_, step_eq_ok_iff.mpr (.inside hend hopen), hdone, rfl⟩

def Program.Thinned (p p' : Program) : Prop := List.Forall₂ ProgramLine.Thinned p.lines p'.lines

/-- What can be read without a filter can be read with it. -/
theorem Program.exists_ofText_thinned (hf : f.SparesBarriers) {p : Program}
    (h : Program.ofText none source = .ok p) :
    ∃ p', Program.ofText (some f) source = .ok p' ∧ p.Thinned p' := by
  obtain ⟨done, hdone, rfl⟩ := (ofText_eq_ok_iff _ _ _).mp h
  have hlines : List.Forall₂ (fun a b => a = b ∧ a ∈ sourceLines source) (sourceLines source)
      (sourceLines source) := List.forall₂_same.mpr fun l hl => ⟨rfl, hl⟩
  have hstep : ∀ a b (s : ReaderState) (t : ReaderState) (s' : ReaderState),
      a = b ∧ a ∈ sourceLines source → s.Thinned t → ReaderState.step none s a = .ok s' →
        ∃ t', ReaderState.step (some f) t b = .ok t' ∧ s'.Thinned t' := by
    rintro l _ s t s' ⟨rfl, hl⟩ hthin hs
    exact hthin.step hf hl hs
  have hstart : ReaderState.start.Thinned .start := ⟨.nil, rfl⟩
  obtain ⟨⟨done', block⟩, hrun, hthin⟩ := foldlM_follows hstep hlines hstart hdone
  obtain rfl : block = none := hthin.openBlock
  exact ⟨⟨done'.reverse⟩, (ofText_eq_ok_iff _ _ _).mpr ⟨done', hrun, rfl⟩,
    List.forall₂_reverse_iff.mpr hthin.done⟩

end Filtered

theorem Statement.Thinned.isBarrier_eq {s s' : Statement} (h : s.Thinned s') :
    s'.isBarrier = s.isBarrier := by
  cases h <;> rfl

theorem Program.Thinned.numBarriers_eq {p p' : Program} (h : p.Thinned p') :
    p'.numBarriers = p.numBarriers := by
  obtain ⟨ls⟩ := p
  obtain ⟨ls'⟩ := p'
  simp only [Program.Thinned, numBarriers] at h ⊢
  induction h with
  | nil => rfl
  | cons hl _ ih => rw [List.countP_cons, List.countP_cons, ih, hl.statement.isBarrier_eq]

/-- What is passed over names no coupler. -/
theorem Statement.Thinned.isCoupled {s s' : Statement} (h : s.Thinned s')
    (hs : s.isCoupled = false) : s'.isCoupled = false := by
  cases h with
  | same => exact hs
  | _ => rfl

theorem Program.Thinned.usesCouplers {p p' : Program} (h : p.Thinned p')
    (hnone : p.usesCouplers = false) : p'.usesCouplers = false := by
  rw [Program.usesCouplers, List.any_eq_false] at hnone ⊢
  intro l' hl'
  obtain ⟨l, hl, hthin⟩ := forall₂_left_of_mem h hl'
  exact Bool.eq_false_iff.mp (hthin.statement.isCoupled (Bool.eq_false_iff.mpr (hnone l hl)))

/-- What is read at the line of a barrier is that barrier, whatever the filter. -/
theorem Program.statement_of_isBarrier {f : LineFilter} (hf : f.SparesBarriers) {source : String}
    {p : Program} (h : Program.ofText (some f) source = .ok p) {l : SourceLine}
    (hl : l ∈ sourceLines source) (hbarrier : l.IsBarrier) {d : ProgramLine} (hd : d ∈ p.lines)
    (hnumber : d.number = l.number) : d.statement = .barrier (wordsOf l.rest) := by
  obtain ⟨k, hk, hsame, hread⟩ := from_of_ofText h d hd
  obtain rfl : l = k := eq_of_number_eq hl hk (hnumber.symm.trans hsame)
  rcases hread with hread | hfirst
  · exact Except.ok.inj (hread.symm.trans (SourceLine.statement_of_isBarrier hf hl hbarrier))
  · exact absurd (hbarrier.1.symm.trans hfirst) (by simp)

/-- The second moment has operations of the first only, in their order. -/
def Moment.Thinned (m m' : Moment) : Prop := m'.operations.Sublist m.operations

structure Assembly.Thinned (s s' : Assembly) : Prop where
  closed : List.Forall₂ Moment.Thinned s.closed s'.closed
  current : s.current.Thinned s'.current

theorem Statement.Thinned.eq_of_not_isOperation {s s' : Statement} (h : s.Thinned s')
    (hs : s.isOperation = false) : s' = s := by
  cases h with
  | same => rfl
  | _ => exact absurd hs (by simp [isOperation])

theorem Statement.Thinned.eq_or_ignored {s s' : Statement} (h : s.Thinned s') :
    s' = s ∨ ∃ text, s' = .ignored text := by
  cases h with
  | same => exact .inl rfl
  | _ => exact .inr ⟨_, rfl⟩

/-- The same barrier closes both moments, and what is left out leaves room for the rest. -/
theorem Assembly.Thinned.step {w : Wiring} {l l' : ProgramLine} {s s' t : Assembly}
    (hl : l.Thinned l') (h : s.Thinned s') (hs : Assembly.step w s l = .ok t) :
    ∃ t', Assembly.step w s' l' = .ok t' ∧ t.Thinned t' := by
  have hthin := hl.statement
  cases hb : l.statement.isBarrier with
  | true =>
    obtain rfl : s.close = t := Except.ok.inj ((step_of_isBarrier hb).symm.trans hs)
    exact ⟨_, step_of_isBarrier (hthin.isBarrier_eq.trans hb), .cons h.current h.closed,
      List.Sublist.refl _⟩
  | false =>
    have hb' : l'.statement.isBarrier = false := hthin.isBarrier_eq.trans hb
    cases hop : l.statement.isOperation with
    | false =>
      obtain rfl : s = t := Except.ok.inj ((step_of_not_isOperation hb hop).symm.trans hs)
      have hop' : l'.statement.isOperation = false := by rwa [hthin.eq_of_not_isOperation hop]
      exact ⟨s', step_of_not_isOperation hb' hop', h⟩
    | true =>
      obtain ⟨op, hden, hfree, rfl⟩ := (step_eq_ok_iff_of_isOperation hop).mp hs
      rcases hthin.eq_or_ignored with hsame | ⟨text, hignored⟩
      · have hfree' : ∀ x ∈ s'.current.operations, x.Apart op :=
          fun x hx => hfree x (h.current.subset hx)
        rw [← hsame] at hop hden
        exact ⟨_, (step_eq_ok_iff_of_isOperation hop).mpr ⟨op, hden, hfree', rfl⟩, h.closed,
          h.current.append (List.Sublist.refl [op])⟩
      · have hop' : l'.statement.isOperation = false := by rw [hignored]; rfl
        exact ⟨s', step_of_not_isOperation hb' hop', h.closed,
          h.current.trans (List.sublist_append_left _ _)⟩

/-- At the end the open moment of the second is dropped at the latest where that of the first
is. -/
theorem Assembly.Thinned.finish {s s' : Assembly} (h : s.Thinned s') {k : Nat} {m' : Moment}
    (hm' : s'.finish.moments[k]? = some m') :
    ∃ m, s.finish.moments[k]? = some m ∧ m.Thinned m' := by
  have hclosed := List.forall₂_reverse_iff.mpr h.closed
  rw [finish_moments] at hm' ⊢
  by_cases hempty : s'.current.operations = []
  · rw [if_pos hempty, List.append_nil] at hm'
    obtain ⟨m, hm, hthin⟩ := forall₂_left_getElem? hclosed hm'
    exact ⟨m, by rw [List.getElem?_append_left (List.getElem?_eq_some_iff.mp hm).1, hm], hthin⟩
  · have hopen : s.current.operations ≠ [] :=
      fun hnil => hempty (List.sublist_nil.mp (hnil ▸ h.current))
    rw [if_neg hempty] at hm'
    rw [if_neg hopen]
    exact forall₂_left_getElem? (List.rel_append hclosed (.cons h.current .nil)) hm'

/-- What is assembled without instructions that were passed over has the same moments, but for
operations that are left out. -/
theorem Program.Thinned.assemble {w : Wiring} {p p' : Program} (h : p.Thinned p') {c : Circuit}
    (hc : p.assemble w = .ok c) : ∃ c', p'.assemble w = .ok c' ∧
      ∀ (k : Nat) (m' : Moment), c'.moments[k]? = some m' →
        ∃ m, c.moments[k]? = some m ∧ m.Thinned m' := by
  obtain ⟨s, hs, rfl⟩ := (Program.assemble_eq_ok_iff_foldlM c).mp hc
  have hstart : Assembly.start.Thinned .start := ⟨.nil, List.Sublist.refl _⟩
  obtain ⟨s', hs', hthin⟩ := foldlM_follows (fun _ _ _ _ _ hl ht => ht.step hl) h hstart hs
  exact ⟨_, (Program.assemble_eq_ok_iff_foldlM _).mpr ⟨s', hs', rfl⟩, fun k m' => hthin.finish⟩

/-- An accepted filter never passes over a barrier: where a line is a barrier, however its words
are divided, no other statement is read. A script that is read without the filter is read with it,
line by line the same but for instructions that are passed over. And if it has a circuit, it has
one with the filter: the same barriers close the moments, and each moment holds some of the
operations of the moment in its place, in their order. -/
theorem LineFilter.keeps_moments (starts : List String) (f : LineFilter)
    (hf : LineFilter.make starts = .ok f) (source : String) :
    (∀ l ∈ sourceLines source, l.IsBarrier →
      l.statement (some f) = .ok (.barrier (wordsOf l.rest)) ∧
      ∀ p', Program.ofText (some f) source = .ok p' → ∀ d ∈ p'.lines, d.number = l.number →
        d.statement = .barrier (wordsOf l.rest)) ∧
    (∀ p, Program.ofText none source = .ok p →
      ∃ p', Program.ofText (some f) source = .ok p' ∧ p.Thinned p') ∧
    ∀ w c, Circuit.ofScript w none source = .ok c → ∃ c' p p',
      Circuit.ofScript w (some f) source = .ok c' ∧
      Program.ofText none source = .ok p ∧ Program.ofText (some f) source = .ok p' ∧
      p'.numBarriers = p.numBarriers ∧ p.numBarriers ≤ c'.numMoments ∧
      c'.numMoments ≤ c.numMoments ∧ c.numMoments ≤ p.numBarriers + 1 ∧
      ∀ (k : Nat) (m' : Moment), c'.moments[k]? = some m' →
        ∃ m, c.moments[k]? = some m ∧ m'.operations.Sublist m.operations := by
  have hspares := sparesBarriers_of_make hf
  refine ⟨fun l hl hbarrier => ⟨?_, fun p' hp' d hd hnumber => ?_⟩,
    fun p hp => Program.exists_ofText_thinned hspares hp, fun w c hc => ?_⟩
  · exact SourceLine.statement_of_isBarrier hspares hl hbarrier
  · exact Program.statement_of_isBarrier hspares hp' hl hbarrier hd hnumber
  · obtain ⟨p, hp, hcouplers, hassemble⟩ := (Circuit.ofScript_eq_ok_iff w none source c).mp hc
    obtain ⟨p', hp', hthin⟩ := Program.exists_ofText_thinned hspares hp
    obtain ⟨c', hassemble', hmoments⟩ := hthin.assemble hassemble
    have hc' : Circuit.ofScript w (some f) source = .ok c' :=
      (Circuit.ofScript_eq_ok_iff w _ source c').mpr
        ⟨p', hp', fun hnone => hthin.usesCouplers (hcouplers hnone), hassemble'⟩
    have hcount := (Program.moments_of_assemble hassemble).1
    have hcount' := (Program.moments_of_assemble hassemble').1
    have hbarriers := hthin.numBarriers_eq
    have hfewer : c'.numMoments ≤ c.numMoments := by
      by_contra hmore
      obtain ⟨m, hm, -⟩ := hmoments c.moments.length _ (List.getElem?_eq_getElem (not_le.mp hmore))
      simp at hm
    have hmost : c.numMoments ≤ p.numBarriers + 1 := by split at hcount <;> omega
    exact ⟨c', p, p', hc', hp, hp', hbarriers, by omega, hfewer, hmost, hmoments⟩

namespace LineFilter

/-- A pulse beside a measurement, a barrier behind tabs, a block, and a last moment that no barrier
closes. -/
def pulsesText : String :=
  "X q0\nM q1\n \tB\t\rA R # end\r\n# CIRQ_CONTEXT_START\n# Gate: \x7b\"XY\":[1,200,50]\x7d\n" ++
  "# Targets: [\"q1\"]\nX q1\n# CIRQ_CONTEXT_END\nX q0\nB A\nX q1\n"

def pulses : Program :=
  ⟨[⟨1, .gate .x "q0"⟩, ⟨2, .measure ["q1"]⟩, ⟨3, .barrier ["A", "R"]⟩,
    ⟨4, .context ⟨"\x7b\"XY\":[1,200,50]\x7d", "[\"q1\"]", ["X q1"]⟩⟩, ⟨9, .gate .x "q0"⟩,
    ⟨10, .barrier ["A"]⟩, ⟨11, .gate .x "q1"⟩]⟩

theorem keeps_moments_pulsesText : ∃ f c c' p', LineFilter.make ["X", "BX"] = .ok f ∧
    Program.ofText (some f) pulsesText = .ok p' ∧ pulses.Thinned p' ∧
    (∀ d ∈ p'.lines, d.number = 3 → d.statement = .barrier ["A", "R"]) ∧
    Circuit.ofScript .joinedPair none pulsesText = .ok c ∧
    Circuit.ofScript .joinedPair (some f) pulsesText = .ok c' ∧
    2 ≤ c'.numMoments ∧ c'.numMoments ≤ c.numMoments ∧ c.numMoments ≤ 3 ∧
    ∀ (k : Nat) (m' : Moment), c'.moments[k]? = some m' →
      ∃ m, c.moments[k]? = some m ∧ m'.operations.Sublist m.operations := by
  have hmake : LineFilter.make ["X", "BX"] = .ok ⟨["X", "BX"]⟩ := by decide +kernel
  have hprogram : Program.ofText none pulsesText = .ok pulses := by decide +kernel
  have hsome : (pulses.assemble .joinedPair).toOption.isSome = true := by decide +kernel
  have hline : ⟨3, "B\t\rA R # end\r", .word "B", [.word "A", .word "R", .comment "# end"]⟩ ∈
      sourceLines pulsesText := by decide +kernel
  obtain ⟨c, hc⟩ := Option.isSome_iff_exists.mp hsome
  have hscript := (Circuit.ofScript_eq_ok_iff .joinedPair none pulsesText c).mpr
    ⟨pulses, hprogram, fun _ => rfl, (toOption_eq_some_iff _ _).mp hc⟩
  obtain ⟨hbarriers, hprograms, hcircuits⟩ := keeps_moments ["X", "BX"] _ hmake pulsesText
  obtain ⟨p', hp', hthin⟩ := hprograms pulses hprogram
  obtain ⟨c', p, -, hc', hp, -, -, hleast, hfewer, hmost, hmoments⟩ := hcircuits _ c hscript
  obtain rfl : pulses = p := Except.ok.inj (hprogram.symm.trans hp)
  have hthird := (hbarriers _ hline ⟨rfl, by decide⟩).2 p' hp'
  exact ⟨_, c, c', p', hmake, hp', hthin, hthird, hscript, hc', hleast, hfewer, hmost, hmoments⟩

end LineFilter

end PulseScript
