import Mathlib
import PulseScript.Proofs.ContextText
import PulseScript.Proofs.Words
import PulseScript.Script.Assembly

/-!
# Reading written lines

Lines that the compiler writes are read outside of any open block, and leave none open.
So what they are read as does not depend on where they stand, and lines one after the other
are read as their statements one after the other.
-/
namespace PulseScript

structure Spells (lines : List String) (ss : List Statement) : Prop where
  closed : ∀ l ∈ lines, '\n' ∉ l.toList
  reads : ∀ start done, ∃ pls : List ProgramLine, pls.map (·.statement) = ss ∧
    (numberedLines start lines).foldlM (ReaderState.step none) ⟨done, none⟩ =
      .ok ⟨pls.reverse ++ done, none⟩

namespace Spells

theorem nil : Spells [] [] := ⟨by simp, fun _ _ => ⟨[], rfl, rfl⟩⟩

theorem append {ls ks : List String} {ss us : List Statement} (h : Spells ls ss)
    (h' : Spells ks us) : Spells (ls ++ ks) (ss ++ us) := by
  constructor
  · intro l hl
    rcases List.mem_append.mp hl with hl | hl
    · exact h.closed l hl
    · exact h'.closed l hl
  · intro start done
    obtain ⟨pls, hpls, hrun⟩ := h.reads start done
    obtain ⟨qls, hqls, hrun'⟩ := h'.reads (start + ls.length) (pls.reverse ++ done)
    refine ⟨pls ++ qls, by simp [hpls, hqls], ?_⟩
    rw [numberedLines_append, List.foldlM_append, hrun]
    simpa [bind, Except.bind] using hrun'

theorem flatMap {α : Type} {xs : List α} {lines : α → List String} {ss : α → List Statement}
    (h : ∀ x ∈ xs, Spells (lines x) (ss x)) : Spells (xs.flatMap lines) (xs.flatMap ss) := by
  induction xs with
  | nil => exact nil
  | cons x xs ih =>
    rw [List.flatMap_cons, List.flatMap_cons]
    exact (h x (by simp)).append (ih fun y hy => h y (List.mem_cons_of_mem x hy))

end Spells

/-- A program is found for a script whose lines spell its statements. -/
theorem Spells.program {lines : List String} {ss : List Statement} (h : Spells lines ss) :
    ∃ pls : List ProgramLine, pls.map (·.statement) = ss ∧
      Program.ofText none (scriptText lines) = .ok ⟨pls⟩ := by
  obtain ⟨pls, hpls, hrun⟩ := h.reads 1 []
  refine ⟨pls, hpls, ?_⟩
  rw [Program.ofText, Program.ofLines, sourceLines_scriptText lines h.closed,
    show ReaderState.start = ⟨[], none⟩ from rfl, hrun]
  simp [ReaderState.finish]

theorem Mnemonic.ofText?_text (m : Mnemonic) : ofText? m.text = some m := by
  cases m <;> rfl

theorem Mnemonic.ofText?_eq_some_iff {w : String} {m : Mnemonic} :
    ofText? w = some m ↔ m.text = w := by
  refine ⟨fun h => ?_, fun h => h ▸ ofText?_text m⟩
  simpa using List.find?_some h

theorem Mnemonic.ofText?_eq_none_iff {w : String} :
    ofText? w = none ↔ ∀ m : Mnemonic, m.text ≠ w := by
  rw [Option.eq_none_iff_forall_ne_some]
  exact forall_congr' fun m => not_congr ofText?_eq_some_iff

theorem Mnemonic.isWord_text (m : Mnemonic) : IsWord m.text := by
  cases m <;> simp [IsWord, text]

theorem wordsOf_words (ws : List String) : wordsOf (ws.map .word) = ws := by
  simp [wordsOf, List.filterMap_map]

theorem wordsOf_lineTokens (line : List Char) : wordsOf (lineTokens line) = lineWords line := by
  have hcomment : wordsOf (lineComment line) = [] := by
    unfold lineComment
    cases line.dropWhile (· != '#') <;> rfl
  have hwords : wordsOf ((lineWords line).map .word) = lineWords line := wordsOf_words _
  rw [lineTokens, wordsOf, List.filterMap_append]
  exact (congrArg₂ (· ++ ·) hwords hcomment).trans (List.append_nil _)

/-- A line that starts with a mnemonic is read as the instruction for the words behind it. -/
theorem spells_line {line : String} {m : Mnemonic} {tokens : List Token} {s : Statement}
    (hline : '\n' ∉ line.toList) (htokens : lineTokens line.toList = .word m.text :: tokens)
    (hs : Statement.ofOperands m (wordsOf tokens) = .ok s) : Spells [line] [s] := by
  constructor
  · intro l hl
    rw [List.mem_singleton.mp hl]
    exact hline
  · intro start done
    have hchars : SourceLine.ofChars? start line.toList =
        some ⟨start, lineText line.toList, .word m.text, tokens⟩ :=
      (SourceLine.ofChars?_eq_some_iff _ _ _).mpr ⟨rfl, rfl, htokens⟩
    refine ⟨[⟨start, s⟩], rfl, ?_⟩
    rw [numberedLines_singleton, hchars]
    simp [ReaderState.step, SourceLine.statement, isFiltered, SourceLine.instruction,
      Mnemonic.ofText?_text, hs, pure, Except.pure, bind, Except.bind]

/-- A mnemonic and its operands on a line are read as the instruction. -/
theorem spells_instruction {m : Mnemonic} {args : List String} {s : Statement}
    (hargs : ∀ a ∈ args, IsWord a) (hs : Statement.ofOperands m args = .ok s) :
    Spells [" ".intercalate (m.text :: args)] [s] := by
  have hwords : ∀ w ∈ m.text :: args, IsWord w :=
    List.forall_mem_cons.mpr ⟨m.isWord_text, hargs⟩
  exact spells_line (newline_notMem_words hwords) (lineTokens_words hwords)
    (by rw [wordsOf_words, hs])

theorem isWord_natText (n : Nat) : IsWord (natText n) := by
  constructor
  · intro h
    have hnil : decimalDigits n = [] := by simpa [natText] using congrArg String.toList h
    exact decimalDigits_ne_nil n hnil
  · intro c hc
    have hdigit : c.isDigit = true := isDigit_of_mem_decimalDigits (by simpa [natText] using hc)
    intro hmem
    simp only [List.mem_cons, List.not_mem_nil, or_false] at hmem
    rcases hmem with h | h | h | h | h <;> subst h <;> exact absurd hdigit (by decide)

/-- The text of a qubit can stand in a line. -/
theorem Qubit.isWord_text (q : Qubit) : IsWord q.text := by
  have hnumber := (isWord_natText q.index.toNat).2
  refine ⟨by simp [text], fun c hc => ?_⟩
  rcases (by simpa [text] using hc : c = 'q' ∨ c ∈ (natText q.index.toNat).toList) with rfl | hc
  · decide
  · exact hnumber c hc

/-- A written duration is read as it was. -/
theorem duration?_natText (ns : UInt64) : duration? (natText ns.toNat) = some ns := by
  have hplus : ∀ cs, decimalDigits ns.toNat ≠ '+' :: cs := by
    intro cs h
    have hmem : '+' ∈ decimalDigits ns.toNat := by simp [h]
    exact absurd (isDigit_of_mem_decimalDigits hmem) (by decide)
  have hdigits := natOfDigits?_decimalDigits ns.toNat
  simp only [duration?, natText, String.toList_ofList]
  split
  · rename_i n hn
    rw [hdigits, Option.some.injEq] at hn
    subst hn
    simp [ns.toNat_lt]
  · rename_i hn
    rw [hdigits] at hn
    exact absurd hn (by simp)

theorem idleLine_eq (label : String) (ns : UInt64) :
    Decoupling.idleLine label ns =
      " ".intercalate [Mnemonic.idle.text, label, natText ns.toNat] := by
  simp [String.intercalate_cons_cons, Decoupling.idleLine, String.append_assoc]

theorem spells_gate {m : Mnemonic} {label : String} (hm : m.operands = .qubit)
    (hlabel : IsWord label) : Spells [m.text ++ " " ++ label] [.gate m label] := by
  have hline : m.text ++ " " ++ label = " ".intercalate [m.text, label] := by
    simp [String.intercalate_cons_cons]
  rw [hline]
  exact spells_instruction (by simpa using hlabel) (by unfold Statement.ofOperands; rw [hm])

theorem spells_coupled {name : String} (hname : IsWord name) :
    Spells [Mnemonic.cz.text ++ " " ++ name] [.coupled .cz name] := by
  have hline : Mnemonic.cz.text ++ " " ++ name = " ".intercalate [Mnemonic.cz.text, name] := by
    simp [String.intercalate_cons_cons]
  rw [hline]
  exact spells_instruction (by simpa using hname) rfl

theorem spells_idle {label : String} (hlabel : IsWord label) (ns : UInt64) :
    Spells [Decoupling.idleLine label ns] [.idle label ns] := by
  have hargs : Statement.ofOperands .idle [label, natText ns.toNat] = .ok (.idle label ns) := by
    simp [Statement.ofOperands, Mnemonic.operands, duration?_natText]
  rw [idleLine_eq]
  exact spells_instruction (by simpa using ⟨hlabel, isWord_natText ns.toNat⟩) hargs

/-- A line that measures labels, at least one, is read as it was. -/
theorem spells_measure {labels : List String} (hne : labels ≠ [])
    (hlabels : ∀ l ∈ labels, IsWord l) :
    Spells [Mnemonic.measure.text ++ " " ++ " ".intercalate labels] [.measure labels] := by
  obtain ⟨label, rest, rfl⟩ := List.exists_cons_of_ne_nil hne
  rw [← String.intercalate_cons_cons]
  exact spells_instruction hlabels rfl

/-- The agents leave the barrier line whole, and name something in it before any comment. -/
structure Target.NamesAgents (t : Target) : Prop where
  single : ∀ a ∈ t.agents, '\n' ∉ a.toList
  word : ∃ c ∈ (" ".intercalate t.agents).toList.takeWhile (· != '#'), isSeparator c = false

namespace Target.NamesAgents

variable {t : Target}

theorem of_words (hne : t.agents ≠ []) (h : ∀ a ∈ t.agents, IsWord a) : t.NamesAgents where
  single a ha := (h a ha).newline_notMem
  word := by
    by_contra! hnone
    have hruns := (splitRuns_eq_nil_iff isSeparator _).mpr fun c hc => by simpa using hnone c hc
    have hwords := lineWords_words h
    rw [lineWords, hruns] at hwords
    exact hne hwords.symm

theorem newline_notMem (h : t.NamesAgents) : '\n' ∉ t.barrier.toList := by
  intro hc
  rw [barrier, String.toList_append, List.mem_append] at hc
  rcases hc with hc | hc
  · exact absurd hc (by decide)
  · rcases mem_toList_intercalate hc with hs | ⟨a, ha, hca⟩
    · exact absurd hs (by decide)
    · exact h.single a ha hca

theorem lineTokens_barrier (t : Target) : lineTokens t.barrier.toList =
    .word Mnemonic.barrier.text :: lineTokens (" ".intercalate t.agents).toList :=
  lineTokens_word_space Mnemonic.barrier.isWord_text _

/-- The barrier line is read as a barrier. -/
theorem spells (h : t.NamesAgents) : ∃ words, Spells [t.barrier] [.barrier words] := by
  have hne : lineWords (" ".intercalate t.agents).toList ≠ [] := by
    intro hnil
    obtain ⟨c, hc, hword⟩ := h.word
    have hall := (splitRuns_eq_nil_iff _ _).mp (List.map_eq_nil_iff.mp hnil)
    exact absurd (hall c hc) (by simp [hword])
  obtain ⟨agent, agents, hwords⟩ := List.exists_cons_of_ne_nil hne
  refine ⟨agent :: agents, spells_line h.newline_notMem (lineTokens_barrier t) ?_⟩
  rw [wordsOf_lineTokens, hwords]
  rfl

end Target.NamesAgents

theorem dropEndWhile_concat {p : Char → Bool} {c : Char} (hc : p c = false) (cs : List Char) :
    dropEndWhile p (cs ++ [c]) = cs ++ [c] := by
  simp [dropEndWhile, hc]

/-- A comment line that does not end in blank space is kept as it is. -/
theorem numberedLines_comment (start : Nat) {line : String} {cs : List Char} {c : Char}
    (hline : line.toList = '#' :: (cs ++ [c])) (hc : isBlank c = false) :
    numberedLines start [line] = [⟨start, lineText line.toList, .comment line, []⟩] := by
  have hkeep : String.ofList (dropEndWhile isBlank ('#' :: (cs ++ [c]))) = line := by
    rw [← List.cons_append, dropEndWhile_concat hc, List.cons_append, ← hline,
      String.ofList_toList]
  rw [numberedLines_singleton, hline, ofChars?_hash, hkeep]
  rfl

theorem content?_opening (h : ContextHeader) (content : String) :
    h.content? (h.opening ++ content) = some content := by
  simp [ContextHeader.content?]

/-- A header with a label is no header with a gate. -/
theorem content?_gate_targets (content : String) :
    ContextHeader.gate.content? (ContextHeader.targets.opening ++ content) = none := by
  have hopening : ContextHeader.gate.opening.toList.isPrefixOf
      (ContextHeader.targets.opening.toList ++ content.toList) = false := rfl
  rw [ContextHeader.content?, String.toList_append]
  simp only [hopening, Bool.false_eq_true, if_false]

/-- A header is no marker. -/
theorem opening_ne_marker (h : ContextHeader) (content : String) :
    h.opening ++ content ≠ contextStart ∧ h.opening ++ content ≠ contextEnd := by
  have hthird : ∀ marker : String, marker.toList[2]? = some 'C' → h.opening ++ content ≠ marker := by
    rintro marker hc rfl
    rw [String.toList_append] at hc
    cases h with
    | gate => exact absurd (show some 'G' = some 'C' from hc) (by decide)
    | targets => exact absurd (show some 'T' = some 'C' from hc) (by decide)
  exact ⟨hthird _ (by decide +kernel), hthird _ (by decide +kernel)⟩

theorem numberedLines_contextStart (n : Nat) :
    numberedLines n [contextStart] =
      [⟨n, lineText contextStart.toList, .comment contextStart, []⟩] := by
  have hline : contextStart.toList = '#' :: (contextStart.toList.tail.dropLast ++ ['T']) := by
    decide +kernel
  exact numberedLines_comment n hline (by decide)

theorem numberedLines_contextEnd (n : Nat) :
    numberedLines n [contextEnd] = [⟨n, lineText contextEnd.toList, .comment contextEnd, []⟩] := by
  have hline : contextEnd.toList = '#' :: (contextEnd.toList.tail.dropLast ++ ['D']) := by
    decide +kernel
  exact numberedLines_comment n hline (by decide)

/-- A header line is a comment with all of its content. -/
theorem numberedLines_header (n : Nat) (h : ContextHeader) {content : String} {cs : List Char}
    {c : Char} (hcontent : content.toList = cs ++ [c]) (hc : isBlank c = false) :
    numberedLines n [h.opening ++ content] =
      [⟨n, lineText (h.opening ++ content).toList, .comment (h.opening ++ content), []⟩] := by
  have hhash : h.opening.toList = '#' :: h.opening.toList.tail := by cases h <;> decide +kernel
  have hline : (h.opening ++ content).toList = '#' :: ((h.opening.toList.tail ++ cs) ++ [c]) := by
    rw [String.toList_append, hcontent, hhash]
    simp
  exact numberedLines_comment n hline hc

theorem numberedLines_gateHeader (n : Nat) (d : Decoupling) :
    numberedLines n [ContextHeader.gate.opening ++ d.gateContent] =
      [⟨n, lineText (ContextHeader.gate.opening ++ d.gateContent).toList,
        .comment (ContextHeader.gate.opening ++ d.gateContent), []⟩] := by
  obtain ⟨cs, hcs⟩ : ∃ cs, d.gateContent.toList = cs ++ ['\x7d'] := by
    rw [Decoupling.gateContent, Json.render, String.toList_ofList, Decoupling.toJson, Json.tag,
      Json.chars]
    exact ⟨_, rfl⟩
  exact numberedLines_header n .gate hcs (by decide)

theorem numberedLines_targetsHeader (n : Nat) (label : String) :
    numberedLines n [ContextHeader.targets.opening ++ Decoupling.targetsContent label] =
      [⟨n, lineText (ContextHeader.targets.opening ++ Decoupling.targetsContent label).toList,
        .comment (ContextHeader.targets.opening ++ Decoupling.targetsContent label), []⟩] := by
  obtain ⟨cs, hcs⟩ : ∃ cs, (Decoupling.targetsContent label).toList = cs ++ [']'] := by
    rw [Decoupling.targetsContent, Json.render, String.toList_ofList, Json.chars]
    exact ⟨_, rfl⟩
  exact numberedLines_header n .targets hcs (by decide)

namespace ReaderState

variable {filter : Option LineFilter} (done : List ProgramLine) (n : Nat) (text : String)

theorem step_begin :
    step filter ⟨done, none⟩ ⟨n, text, .comment contextStart, []⟩ =
      .ok ⟨done, some (.begin n)⟩ := by
  simp [step]

theorem step_gate (b : OpenBlock) (content : String) :
    step filter ⟨done, some b⟩ ⟨n, text, .comment (ContextHeader.gate.opening ++ content), []⟩ =
      .ok ⟨done, some { b with gate := some content }⟩ := by
  simp [step, OpenBlock.addLine, content?_opening, opening_ne_marker]

theorem step_targets (b : OpenBlock) (content : String) :
    step filter ⟨done, some b⟩ ⟨n, text, .comment (ContextHeader.targets.opening ++ content), []⟩ =
      .ok ⟨done, some { b with targets := some content }⟩ := by
  simp [step, OpenBlock.addLine, content?_gate_targets, content?_opening, opening_ne_marker]

theorem step_end {b : OpenBlock} {block : ContextBlock} (h : b.close = .ok block) :
    step filter ⟨done, some b⟩ ⟨n, text, .comment contextEnd, []⟩ =
      .ok ⟨⟨b.start, .context block⟩ :: done, none⟩ := by
  simp [step, h]

end ReaderState

theorem mem_of_mem_intersperse {α : Type} {x sep : α} {xs : List α}
    (h : x ∈ xs.intersperse sep) : x = sep ∨ x ∈ xs := by
  induction xs with
  | nil => exact absurd h (by simp)
  | cons y ys ih =>
    cases ys with
    | nil => exact .inr h
    | cons z zs =>
      rw [List.intersperse_cons_cons, List.mem_cons, List.mem_cons] at h
      rcases h with rfl | rfl | h
      · exact .inr (by simp)
      · exact .inl rfl
      · rcases ih h with rfl | h
        · exact .inl rfl
        · exact .inr (List.mem_cons_of_mem y h)

def IsWordLine (line : String) : Prop :=
  ∃ w ws, (∀ v ∈ w :: ws, IsWord v) ∧ line = " ".intercalate (w :: ws)

def Mnemonic.Opens (m : Mnemonic) (line : String) : Prop :=
  ∃ args, (∀ a ∈ args, IsWord a) ∧ line = " ".intercalate (m.text :: args)

theorem Mnemonic.Opens.isWordLine {m : Mnemonic} {line : String} (h : m.Opens line) :
    IsWordLine line := by
  obtain ⟨args, hargs, rfl⟩ := h
  exact ⟨m.text, args, List.forall_mem_cons.mpr ⟨m.isWord_text, hargs⟩, rfl⟩

theorem Mnemonic.opens_one (m : Mnemonic) {arg : String} (h : IsWord arg) :
    m.Opens (m.text ++ " " ++ arg) :=
  ⟨[arg], by simpa using h, by simp [String.intercalate_cons_cons]⟩

theorem opens_idleLine {label : String} (h : IsWord label) (ns : UInt64) :
    Mnemonic.idle.Opens (Decoupling.idleLine label ns) :=
  ⟨[label, natText ns.toNat], by simpa using ⟨h, isWord_natText ns.toNat⟩, idleLine_eq label ns⟩

/-- A sequence is played by pulses and idle time. -/
theorem Decoupling.eq_of_mem_expand {d : Decoupling} {label line : String}
    (h : line ∈ d.expand label) :
    (∃ ns, line = idleLine label ns) ∨ ∃ axis, line = pulseLine label axis := by
  rw [expand, List.mem_cons, List.mem_append] at h
  rcases h with rfl | h | h
  · exact .inl ⟨_, rfl⟩
  · rcases mem_of_mem_intersperse h with rfl | h
    · exact .inl ⟨_, rfl⟩
    · obtain ⟨axis, -, rfl⟩ := List.mem_map.mp h
      exact .inr ⟨axis, rfl⟩
  · exact .inl ⟨_, List.mem_singleton.mp h⟩

theorem opens_of_mem_expand {d : Decoupling} {label line : String} (hlabel : IsWord label)
    (h : line ∈ d.expand label) :
    Mnemonic.idle.Opens line ∨ ∃ axis, (Decoupling.pulseMnemonic axis).Opens line := by
  rcases Decoupling.eq_of_mem_expand h with ⟨ns, rfl⟩ | ⟨axis, rfl⟩
  · exact .inl (opens_idleLine hlabel ns)
  · exact .inr ⟨axis, Mnemonic.opens_one _ hlabel⟩

/-- The lines that play a sequence start with a mnemonic, whatever the label is. -/
theorem exists_firstToken?_of_mem_expand {d : Decoupling} {label line : String}
    (h : line ∈ d.expand label) : ∃ w, firstToken? line = some (.word w) := by
  rcases Decoupling.eq_of_mem_expand h with ⟨ns, rfl⟩ | ⟨axis, rfl⟩
  · have hline : Decoupling.idleLine label ns =
        Mnemonic.idle.text ++ " " ++ (label ++ " " ++ natText ns.toNat) := by
      simp [Decoupling.idleLine, String.append_assoc]
    exact ⟨_, hline ▸ firstToken?_word Mnemonic.idle.isWord_text _⟩
  · exact ⟨_, firstToken?_word (Mnemonic.isWord_text _) _⟩

/-- Lines that start with words go to the body of an open block. -/
theorem foldlM_body {filter : Option LineFilter} {lines : List String}
    (h : ∀ l ∈ lines, ∃ w, firstToken? l = some (.word w)) (start : Nat)
    (done : List ProgramLine) (b : OpenBlock) :
    (numberedLines start lines).foldlM (ReaderState.step filter) ⟨done, some b⟩ = .ok
      ⟨done, some { b with body := (lines.map fun l => lineText l.toList).reverse ++ b.body }⟩ := by
  induction lines generalizing start b with
  | nil => rfl
  | cons line lines ih =>
    obtain ⟨⟨w, hw⟩, hlines⟩ := List.forall_mem_cons.mp h
    obtain ⟨l, hl, htext, hfirst⟩ := exists_ofChars?_of_firstToken? start hw
    have hstep : ReaderState.step filter ⟨done, some b⟩ l =
        .ok ⟨done, some { b with body := lineText line.toList :: b.body }⟩ := by
      simp [ReaderState.step, OpenBlock.addLine, hfirst, htext]
    rw [numberedLines_cons_ofChars?, hl, List.foldlM_append]
    simpa [hstep, bind, Except.bind, pure, Except.pure] using ih hlines (start + 1) _

/-- The lines of a block. -/
theorem contextLines_eq {d : Decoupling} {label : String} {lines : List String}
    (h : d.contextLines label = .ok lines) :
    lines = contextStart :: (ContextHeader.gate.opening ++ d.gateContent) ::
      (ContextHeader.targets.opening ++ Decoupling.targetsContent label) ::
        (d.expand label ++ [contextEnd]) := by
  unfold Decoupling.contextLines at h
  cases hv : d.validate with
  | error cause => simp [hv] at h
  | ok => simpa [hv] using h.symm

theorem newline_notMem_expand {d : Decoupling} {label line : String} (hlabel : '\n' ∉ label.toList)
    (h : line ∈ d.expand label) : '\n' ∉ line.toList := by
  rcases Decoupling.eq_of_mem_expand h with ⟨ns, rfl⟩ | ⟨axis, rfl⟩
  · simp [Decoupling.idleLine, hlabel, Mnemonic.idle.isWord_text.newline_notMem,
      (isWord_natText ns.toNat).newline_notMem]
  · simp [Decoupling.pulseLine, hlabel, (Mnemonic.isWord_text _).newline_notMem]

/-- No line of a block holds a line feed. -/
theorem newline_notMem_contextLines {d : Decoupling} {label : String} {lines : List String}
    (hlabel : '\n' ∉ label.toList) (h : d.contextLines label = .ok lines) :
    ∀ l ∈ lines, '\n' ∉ l.toList := by
  have hheader : ∀ (k : ContextHeader) (content : String), '\n' ∉ content.toList →
      '\n' ∉ (k.opening ++ content).toList := by
    intro k content hcontent
    rw [String.toList_append, List.mem_append, not_or]
    exact ⟨by cases k <;> decide +kernel, hcontent⟩
  rw [contextLines_eq h]
  intro l hl
  simp only [List.mem_cons, List.mem_append, List.not_mem_nil, or_false] at hl
  rcases hl with rfl | rfl | rfl | hl | rfl
  · decide +kernel
  · exact hheader .gate _ (Decoupling.newline_notMem_gateContent d)
  · exact hheader .targets _ (Decoupling.newline_notMem_targetsContent label)
  · exact newline_notMem_expand hlabel hl
  · decide +kernel

/-- The lines of a block are read as one statement, whatever the label is. -/
theorem foldlM_contextLines {d : Decoupling} {label : String} {lines : List String}
    (h : d.contextLines label = .ok lines) (filter : Option LineFilter) (start : Nat)
    (done : List ProgramLine) :
    (numberedLines start lines).foldlM (ReaderState.step filter) ⟨done, none⟩ =
      .ok ⟨⟨start, .context ⟨d.gateContent, Decoupling.targetsContent label,
        (d.expand label).map fun l => lineText l.toList⟩⟩ :: done, none⟩ := by
  have hclose : ∀ body, OpenBlock.close
      ⟨start, some d.gateContent, some (Decoupling.targetsContent label), body⟩ =
        .ok ⟨d.gateContent, Decoupling.targetsContent label, body.reverse⟩ := fun _ => rfl
  rw [contextLines_eq h, numberedLines_cons _ contextStart,
    numberedLines_cons _ (ContextHeader.gate.opening ++ _),
    numberedLines_cons _ (ContextHeader.targets.opening ++ _), numberedLines_append,
    numberedLines_contextStart, numberedLines_gateHeader, numberedLines_targetsHeader,
    numberedLines_contextEnd]
  simp only [List.singleton_append, List.foldlM_cons, List.foldlM_append, List.foldlM_nil,
    ReaderState.step_begin, ReaderState.step_gate, ReaderState.step_targets, OpenBlock.begin,
    foldlM_body fun _ => exists_firstToken?_of_mem_expand, ReaderState.step_end _ _ _ (hclose _),
    bind, Except.bind, pure, Except.pure]
  simp

theorem spells_contextLines {d : Decoupling} {label : String} {lines : List String}
    (hlabel : IsWord label) (h : d.contextLines label = .ok lines) :
    ∃ body, Spells lines [.context ⟨d.gateContent, Decoupling.targetsContent label, body⟩] :=
  ⟨_, newline_notMem_contextLines hlabel.newline_notMem h, fun start done =>
    ⟨[⟨start, _⟩], rfl, foldlM_contextLines h none start done⟩⟩

end PulseScript
