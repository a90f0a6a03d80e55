import Mathlib
import PulseScript.Proofs.Instructions

/-!
# The ends of lines

A program keeps the texts of lines that it passes over and of the lines in blocks, and a refusal
quotes one. Each is cut from its line, without the separators around it. But a comment reaches to
the end of its line, so where there is a hash the separators behind it stay. With carriage returns
before all line feeds, the program or the refusal is the same but for a carriage return behind each
of these texts that has a hash.
-/
namespace PulseScript

/-- The text is the line without the separators around it, of which those at the end are kept if
there is a comment. -/
inductive CutFrom : List Char → String → Prop where
  | plain {front back : List Char} {text : String} (hfront : ∀ c ∈ front, isSeparator c = true)
    (hback : ∀ c ∈ back, isSeparator c = true)
    (hfirst : ∃ c, text.toList.head? = some c ∧ isSeparator c = false)
    (hlast : ∃ c, text.toList.getLast? = some c ∧ isSeparator c = false)
    (hhash : '#' ∉ text.toList) : CutFrom (front ++ text.toList ++ back) text
  | remark {front : List Char} {text : String} (hfront : ∀ c ∈ front, isSeparator c = true)
    (hfirst : ∃ c, text.toList.head? = some c ∧ isSeparator c = false)
    (hhash : '#' ∈ text.toList) : CutFrom (front ++ text.toList) text

section Lines

variable {line : List Char}

theorem lineText_of_hash (h : '#' ∈ line) :
    lineText line = String.ofList (line.dropWhile isSeparator) := by
  simp [lineText, h]

theorem lineText_of_no_hash (h : '#' ∉ line) :
    lineText line = String.ofList (stripWhile isSeparator line) := by
  simp [lineText, stripWhile, h]

theorem hash_mem_lineText : '#' ∈ (lineText line).toList ↔ '#' ∈ line := by
  by_cases h : '#' ∈ line
  · rw [lineText_of_hash h, String.toList_ofList, hash_mem_dropWhile]
  · rw [lineText_of_no_hash h, String.toList_ofList]
    refine ⟨fun hmem => ?_, fun hmem => absurd hmem h⟩
    obtain ⟨back, hsplit, -⟩ :=
      exists_append_of_dropEndWhile isSeparator (line.dropWhile isSeparator)
    rw [← hash_mem_dropWhile, hsplit]
    exact List.mem_append_left back hmem

/-- What is left of a text when its end is removed starts as the text does, and ends with a
character that stays. -/
theorem ends_of_dropEndWhile {p : Char → Bool} {c : Char} (hc : p c = false) (cs : List Char) :
    (dropEndWhile p (c :: cs)).head? = some c ∧
    ∃ d, (dropEndWhile p (c :: cs)).getLast? = some d ∧ p d = false := by
  obtain ⟨back, hsplit, hback⟩ := exists_append_of_dropEndWhile p (c :: cs)
  have hne : dropEndWhile p (c :: cs) ≠ [] := by
    intro hnil
    rw [hnil, List.nil_append] at hsplit
    simp [hback c (hsplit ▸ List.mem_cons_self)] at hc
  constructor
  · obtain ⟨d, ds, hfirst⟩ := List.exists_cons_of_ne_nil hne
    rw [hfirst] at hsplit ⊢
    exact congrArg some (List.cons.inj hsplit).1.symm
  · obtain ⟨d, hd⟩ := Option.ne_none_iff_exists'.mp (mt List.getLast?_eq_none_iff.mp hne)
    refine ⟨d, hd, ?_⟩
    have hhead := List.head?_dropWhile_not p (c :: cs).reverse
    rw [dropEndWhile, List.getLast?_reverse] at hd
    rw [hd] at hhead
    simpa using hhead

/-- Something is left of a line that is not all separators. -/
theorem exists_dropWhile_eq_cons (h : ∃ c ∈ line, isSeparator c = false) :
    ∃ c cs, line.dropWhile isSeparator = c :: cs ∧ isSeparator c = false := by
  cases hdrop : line.dropWhile isSeparator with
  | nil =>
    obtain ⟨c, hc, hsep⟩ := h
    simp [List.dropWhile_eq_nil_iff.mp hdrop c hc] at hsep
  | cons c cs =>
    have hhead := List.head?_dropWhile_not isSeparator line
    rw [hdrop] at hhead
    exact ⟨c, cs, rfl, by simpa using hhead⟩

theorem cutFrom_lineText (h : ∃ c ∈ line, isSeparator c = false) :
    CutFrom line (lineText line) := by
  obtain ⟨c, cs, hdrop, hc⟩ := exists_dropWhile_eq_cons h
  have hfront : ∀ c ∈ line.takeWhile isSeparator, isSeparator c = true :=
    fun c hc => List.mem_takeWhile_imp hc
  have hline := List.takeWhile_append_dropWhile (p := isSeparator) (l := line)
  by_cases hhash : '#' ∈ line
  · have htext : (lineText line).toList = line.dropWhile isSeparator := by
      rw [lineText_of_hash hhash, String.toList_ofList]
    have hcut := CutFrom.remark hfront ⟨c, by rw [htext, hdrop]; rfl, hc⟩
      (hash_mem_lineText.mpr hhash)
    rwa [htext, hline] at hcut
  · have htext : (lineText line).toList = stripWhile isSeparator line := by
      rw [lineText_of_no_hash hhash, String.toList_ofList]
    obtain ⟨back, hsplit, hback⟩ := exists_append_of_dropEndWhile isSeparator (c :: cs)
    obtain ⟨hfirst, d, hlast, hd⟩ := ends_of_dropEndWhile hc cs
    rw [← hdrop] at hfirst hlast
    have hcut := CutFrom.plain hfront hback ⟨c, by rw [htext]; exact hfirst, hc⟩
      ⟨d, by rw [htext]; exact hlast, hd⟩ (mt hash_mem_lineText.mp hhash)
    rwa [htext, stripWhile, List.append_assoc, hdrop, ← hsplit, ← hdrop, hline] at hcut

end Lines

/-- The texts of lines that a statement keeps. -/
def Statement.keptTexts : Statement → List String
  | ignored text => [text]
  | context block => block.body
  | _ => []

variable {filter : Option LineFilter} {ls part : List SourceLine} {ds : List ProgramLine}
  {d : ProgramLine} {l : SourceLine} {m : Mnemonic} {ws : List String} {u : Statement} {t : String}
  {e : ScriptError} {closed : Nat}

theorem Instruction.keptTexts_eq (h : Instruction m ws u) : u.keptTexts = [] := by
  cases h <;> rfl

theorem SourceLine.eq_text_of_keptText (h : l.statement filter = .ok u) (ht : t ∈ u.keptTexts) :
    t = l.text := by
  unfold statement at h
  split at h
  · cases h
    simp [Statement.keptTexts] at ht
  · split at h
    · cases h
      exact List.mem_singleton.mp ht
    · obtain ⟨m, -, hfits⟩ := instruction_eq_ok_iff.mp h
      simp [hfits.keptTexts_eq] at ht

theorem Stretch.exists_of_keptText (h : Stretch filter part d) (ht : t ∈ d.statement.keptTexts) :
    ∃ l ∈ part, l.text = t := by
  cases h with
  | @line l u hl hu => exact ⟨l, by simp, (SourceLine.eq_text_of_keptText hu ht).symm⟩
  | @block start stop inner gate targets =>
    obtain ⟨l, hl, rfl⟩ := List.mem_map.mp ht
    exact ⟨l, by simp [List.mem_of_mem_filter hl], rfl⟩

/-- The characters with a carriage return before each line feed. -/
def crlfChars (cs : List Char) : List Char :=
  cs.flatMap fun c => if c = '\n' then ['\r', '\n'] else [c]

def crlfText (source : String) : String := String.ofList (crlfChars source.toList)

theorem crlfChars_line {line : List Char} (h : '\n' ∉ line) : crlfChars line = line := by
  induction line with
  | nil => rfl
  | cons c line ih =>
    obtain ⟨hc, hline⟩ := not_or.mp (List.mem_cons.not.mp h)
    rw [crlfChars, List.flatMap_cons, if_neg (Ne.symm hc)]
    exact congrArg (c :: ·) (ih hline)

theorem crlfChars_append (cs rest : List Char) :
    crlfChars (cs ++ rest) = crlfChars cs ++ crlfChars rest := List.flatMap_append

/-- The text of a line that ends in a carriage return, from the text without. -/
def withReturn (text : String) : String := if '#' ∈ text.toList then text ++ "\r" else text

theorem withReturn_eq_self_iff {text : String} : withReturn text = text ↔ '#' ∉ text.toList := by
  unfold withReturn
  split_ifs with h <;> simp [h]

theorem lineText_return (line : List Char) :
    lineText (line ++ ['\r']) = withReturn (lineText line) := by
  have hreturn : ∀ c ∈ ['\r'], isSeparator c = true := by simp [isSeparator]
  by_cases h : '#' ∈ line
  · have hline : '#' ∈ line ++ ['\r'] := List.mem_append_left _ h
    have hne : line.dropWhile isSeparator ≠ [] :=
      List.ne_nil_of_mem ((hash_mem_dropWhile line).mpr h)
    rw [withReturn, if_pos (hash_mem_lineText.mpr h), lineText_of_hash hline, lineText_of_hash h,
      List.dropWhile_append, if_neg (by simpa using hne), String.ofList_append]
  · have hline : '#' ∉ line ++ ['\r'] := by simpa using h
    rw [withReturn, if_neg (mt hash_mem_lineText.mp h), lineText_of_no_hash hline,
      lineText_of_no_hash h, stripWhile_append_of_all hreturn]

/-- The line as it is with carriage returns before the line feeds, of which there are so many. -/
def SourceLine.crlf (closed : Nat) (l : SourceLine) : SourceLine :=
  if l.number ≤ closed then { l with text := withReturn l.text } else l

theorem SourceLine.ofChars?_return {n closed : Nat} (h : n ≤ closed) (line : List Char) :
    SourceLine.ofChars? n (line ++ ['\r']) =
      (SourceLine.ofChars? n line).map (SourceLine.crlf closed) := by
  have htokens : lineTokens ([] ++ line ++ ['\r']) = lineTokens line :=
    lineTokens_padded (by simp) (by simp [isSeparator])
  rw [List.nil_append] at htokens
  unfold ofChars?
  rw [htokens, lineText_return]
  cases lineTokens line with
  | nil => rfl
  | cons first rest => simp [SourceLine.crlf, h]

/-- With carriage returns before the line feeds, a text has the same lines, and those that a line
feed ends have a carriage return more. -/
theorem sourceLines_crlf (source : String) : sourceLines (crlfText source) =
    (sourceLines source).map (SourceLine.crlf (source.toList.count '\n')) := by
  suffices h : ∀ cs n, numberedLines (n + 1) ((splitLines (crlfChars cs)).map String.ofList) =
      (numberedLines (n + 1) ((splitLines cs).map String.ofList)).map
        (SourceLine.crlf (n + cs.count '\n')) by
    have hlines := h source.toList 0
    rw [Nat.zero_add, Nat.zero_add] at hlines
    rw [sourceLines_eq_numberedLines, sourceLines_eq_numberedLines, textLines, crlfText,
      String.toList_ofList, hlines, textLines]
  intro cs
  induction cs using lines_induction with
  | last line hline =>
    intro n
    have hnumber {l : SourceLine} (hl : l.number = n + 1) : l.crlf n = l :=
      if_neg (by omega)
    rw [crlfChars_line hline, splitLines_last line hline, List.count_eq_zero.mpr hline,
      List.map_singleton, numberedLines_singleton, Nat.add_zero]
    cases hl : SourceLine.ofChars? (n + 1) (String.ofList line).toList with
    | none => rfl
    | some l =>
      obtain ⟨hl, -⟩ := (SourceLine.ofChars?_eq_some_iff _ _ l).mp hl
      exact congrArg (fun k => [k]) (hnumber hl).symm
  | next line rest hline ih =>
    intro n
    have hreturn : '\n' ∉ line ++ ['\r'] := by simp [hline]
    have hchars : crlfChars (line ++ '\n' :: rest) =
        (line ++ ['\r']) ++ '\n' :: crlfChars rest := by
      rw [crlfChars_append, crlfChars_line hline, List.append_assoc]
      rfl
    have hcount : (line ++ '\n' :: rest).count '\n' = rest.count '\n' + 1 := by
      rw [List.count_append, List.count_eq_zero.mpr hline, List.count_cons_self, Nat.zero_add]
    have hclosed : n + 1 ≤ n + (rest.count '\n' + 1) := by omega
    rw [hchars, splitLines_line _ _ hreturn, splitLines_line _ _ hline, List.map_cons,
      List.map_cons, numberedLines_cons_ofChars?, numberedLines_cons_ofChars?, ih, hcount,
      String.toList_ofList, String.toList_ofList, SourceLine.ofChars?_return hclosed,
      List.map_append, Nat.add_right_comm n 1, Nat.add_assoc n]
    cases SourceLine.ofChars? (n + 1) line <;> rfl

/-- The statement with a carriage return behind each text it keeps that has a hash. -/
def Statement.crlf : Statement → Statement
  | ignored text => ignored (withReturn text)
  | context block => context { block with body := block.body.map withReturn }
  | s => s

theorem map_eq_self_iff {α : Type} {f : α → α} {xs : List α} :
    xs.map f = xs ↔ ∀ x ∈ xs, f x = x := by
  have hsame := List.map_inj_left (f := f) (g := id) (l := xs)
  rwa [List.map_id] at hsame

theorem Statement.crlf_eq_self_iff : u.crlf = u ↔ ∀ t ∈ u.keptTexts, '#' ∉ t.toList := by
  cases u with
  | ignored text => simp [Statement.crlf, keptTexts, withReturn_eq_self_iff]
  | context block =>
    have hbody : block.body.map withReturn = block.body ↔ ∀ t ∈ block.body, '#' ∉ t.toList := by
      simp only [map_eq_self_iff, withReturn_eq_self_iff]
    rw [keptTexts, ← hbody]
    refine ⟨fun h => ?_, fun h => by rw [crlf, h]⟩
    exact congrArg ContextBlock.body (Statement.context.inj h)
  | _ => simp [Statement.crlf, keptTexts]

def ProgramLine.crlf (closed : Nat) (d : ProgramLine) : ProgramLine :=
  if d.number ≤ closed then ⟨d.number, d.statement.crlf⟩ else d

def Program.crlf (closed : Nat) (p : Program) : Program := ⟨p.lines.map (ProgramLine.crlf closed)⟩

/-- The error with a carriage return behind a text it quotes that has a hash. -/
def ScriptError.crlf (closed : Nat) : ScriptError → ScriptError
  | malformed n text reason => malformed n (if n ≤ closed then withReturn text else text) reason
  | e => e

theorem ScriptError.crlf_invalidContext (closed n : Nat) (fault : ContextFault) :
    (invalidContext n fault).crlf closed = invalidContext n fault := rfl

theorem ScriptError.crlf_unterminatedContext (closed n : Nat) :
    (unterminatedContext n).crlf closed = unterminatedContext n := rfl

theorem ScriptError.crlf_eq_self_iff (closed : Nat) : e.crlf closed = e ↔
    ∀ n text reason, e = .malformed n text reason → n ≤ closed → '#' ∉ text.toList := by
  cases e with
  | malformed n text reason =>
    have hself : (malformed n text reason).crlf closed = malformed n text reason ↔
        (n ≤ closed → '#' ∉ text.toList) := by
      rw [crlf, malformed.injEq, ite_eq_right_iff, withReturn_eq_self_iff]
      simp
    rw [hself]
    constructor
    · rintro h _ _ _ ⟨rfl⟩
      exact h
    · exact fun h => h n text reason rfl
  | _ => simp [crlf]

theorem Instruction.crlf_eq (h : Instruction m ws u) : u.crlf = u := by
  cases h <;> rfl

namespace SourceLine

theorem crlf_number (closed : Nat) (l : SourceLine) : (l.crlf closed).number = l.number := by
  unfold crlf; split <;> rfl

theorem crlf_first (closed : Nat) (l : SourceLine) : (l.crlf closed).first = l.first := by
  unfold crlf; split <;> rfl

theorem crlf_rest (closed : Nat) (l : SourceLine) : (l.crlf closed).rest = l.rest := by
  unfold crlf; split <;> rfl

theorem crlf_text (closed : Nat) (l : SourceLine) :
    (l.crlf closed).text = if l.number ≤ closed then withReturn l.text else l.text := by
  unfold crlf; split <;> rfl

/-- A filter does not see the end of a line. -/
theorem isFiltered_crlf (l : SourceLine) :
    isFiltered filter (l.crlf closed) = isFiltered filter l := by
  have hstrip : stripWhile isBlank (l.crlf closed).text.toList =
      stripWhile isBlank l.text.toList := by
    rw [crlf_text, withReturn]
    split_ifs
    · rw [String.toList_append]
      exact stripWhile_append_of_all (by simp [isBlank])
    · rfl
    · rfl
  cases filter with
  | none => rfl
  | some f => simp [isFiltered, LineFilter.ignores, hstrip]

theorem statement_crlf (closed : Nat) (h : l.statement filter = .ok u) :
    (l.crlf closed).statement filter = .ok (if l.number ≤ closed then u.crlf else u) := by
  unfold statement at h ⊢
  rw [crlf_first]
  split at h
  · cases h
    simp [Statement.crlf]
  · rw [isFiltered_crlf]
    split at h
    · cases h
      rw [crlf_text]
      split_ifs <;> simp_all [Statement.crlf]
    · obtain ⟨m, hm, hfits⟩ := instruction_eq_ok_iff.mp h
      rw [hfits.crlf_eq, ite_self, if_neg ‹_›]
      exact instruction_eq_ok_iff.mpr ⟨m, hm, by rwa [crlf_rest]⟩

theorem Faulty.crlf (h : l.Faulty filter e) : (l.crlf closed).Faulty filter (e.crlf closed) := by
  cases h with
  | unknownMnemonic hl hfilter hw =>
    have hfault := Faulty.unknownMnemonic (l := l.crlf closed) (by rwa [crlf_first])
      (by rwa [isFiltered_crlf]) hw
    rwa [crlf_number] at hfault
  | malformed hl hfilter hargs =>
    have hfault := Faulty.malformed (l := l.crlf closed) (by rwa [crlf_first])
      (by rwa [isFiltered_crlf]) (by rwa [crlf_rest])
    rwa [crlf_number, crlf_text] at hfault

end SourceLine

theorem contents_crlf (h : ContextHeader) (ls : List SourceLine) :
    contents h (ls.map (SourceLine.crlf closed)) = contents h ls := by
  rw [contents, contents, List.filterMap_map]
  refine List.filterMap_congr fun l _ => ?_
  simp [SourceLine.content?, SourceLine.crlf_first]

theorem bodyTexts_crlf (h : ∀ l ∈ ls, l.number ≤ closed) :
    bodyTexts (ls.map (SourceLine.crlf closed)) = (bodyTexts ls).map withReturn := by
  have hheader (l : SourceLine) : (l.crlf closed).isHeader = l.isHeader := by
    simp [SourceLine.isHeader, SourceLine.content?, SourceLine.crlf_first]
  rw [bodyTexts, bodyTexts, List.filter_map, List.map_map, List.map_map]
  simp only [Function.comp_def, hheader]
  refine List.map_congr_left fun l hl => ?_
  rw [SourceLine.crlf_text, if_pos (h l (List.mem_of_mem_filter hl))]

theorem forall_unmarked_crlf (closed : Nat) (h : ∀ l ∈ ls, l.Unmarked) :
    ∀ l ∈ ls.map (SourceLine.crlf closed), l.Unmarked := by
  rw [List.forall_mem_map]
  intro l hl
  exact ⟨by rw [SourceLine.crlf_first]; exact (h l hl).ne_start,
    by rw [SourceLine.crlf_first]; exact (h l hl).ne_end⟩

theorem Stretch.crlf (h : Stretch filter part d)
    (hclosed : part.Pairwise fun l _ => l.number ≤ closed) :
    Stretch filter (part.map (SourceLine.crlf closed)) (d.crlf closed) := by
  cases h with
  | @line l u hl hu =>
    have hline := Stretch.line (l := l.crlf closed) (by rwa [SourceLine.crlf_first])
      (SourceLine.statement_crlf closed hu)
    rw [SourceLine.crlf_number] at hline
    simp only [ProgramLine.crlf, List.map_singleton]
    split_ifs with hn <;> simpa [hn] using hline
  | @block start stop inner gate targets hstart hinner hstop hgate htargets =>
    rw [List.pairwise_cons, List.pairwise_append] at hclosed
    obtain ⟨hbefore, -, -, hbehind⟩ := hclosed
    have hbody : ∀ l ∈ inner, l.number ≤ closed := fun l hl => hbehind l hl stop (by simp)
    have hblock : Stretch filter
        (start.crlf closed :: (inner.map (SourceLine.crlf closed) ++ [stop.crlf closed]))
        ⟨(start.crlf closed).number,
          .context ⟨gate, targets, bodyTexts (inner.map (SourceLine.crlf closed))⟩⟩ :=
      .block (by rwa [SourceLine.crlf_first]) (forall_unmarked_crlf closed hinner)
        (by rwa [SourceLine.crlf_first]) (by rwa [contents_crlf]) (by rwa [contents_crlf])
    rw [bodyTexts_crlf hbody, SourceLine.crlf_number] at hblock
    rw [ProgramLine.crlf, if_pos (hbefore stop (by simp)), List.map_cons, List.map_append]
    exact hblock

theorem ReadAs.crlf (h : ReadAs filter ls ds) (hclosed : ls.Pairwise fun l _ => l.number ≤ closed) :
    ReadAs filter (ls.map (SourceLine.crlf closed)) (ds.map (ProgramLine.crlf closed)) := by
  obtain ⟨parts, rfl, hparts⟩ := h
  refine ⟨parts.map (List.map (SourceLine.crlf closed)), List.map_flatten, ?_⟩
  rw [List.forall₂_map_left_iff, List.forall₂_map_right_iff]
  have hpart := (List.pairwise_flatten.mp hclosed).1
  exact forall₂_imp_of_mem hparts fun part hmem d hd => hd.crlf (hpart part hmem)

theorem Opens.crlf {start : SourceLine} {inner : List SourceLine} (h : Opens filter ls start inner)
    (hclosed : ls.Pairwise fun l _ => l.number ≤ closed) :
    Opens filter (ls.map (SourceLine.crlf closed)) (start.crlf closed)
      (inner.map (SourceLine.crlf closed)) := by
  cases h with
  | intro hbefore hstart hinner =>
    have hread := hbefore.crlf (List.pairwise_append.mp hclosed).1
    rw [List.map_append, List.map_cons]
    exact .intro hread (by rwa [SourceLine.crlf_first]) (forall_unmarked_crlf closed hinner)

theorem Refused.crlf (h : Refused filter ls e)
    (hclosed : ls.Pairwise fun l _ => l.number ≤ closed) :
    Refused filter (ls.map (SourceLine.crlf closed)) (e.crlf closed) := by
  cases h with
  | faulty hbefore hl hfault =>
    have hread := hbefore.crlf (List.pairwise_append.mp hclosed).1
    rw [List.map_append, List.map_cons]
    exact .faulty hread (by rwa [SourceLine.crlf_first]) hfault.crlf
  | @nested before inner after start l hopen hl =>
    have hopen := hopen.crlf (List.pairwise_append.mp hclosed).1
    rw [List.map_append, List.map_cons, ScriptError.crlf_invalidContext, ← l.crlf_number closed]
    exact .nested hopen (by rwa [SourceLine.crlf_first])
  | @missingGate before inner after start stop hopen hstop hgate =>
    have hopen := hopen.crlf (List.pairwise_append.mp hclosed).1
    rw [List.map_append, List.map_cons, ScriptError.crlf_invalidContext, ← start.crlf_number closed]
    exact .missingGate hopen (by rwa [SourceLine.crlf_first]) (by rwa [contents_crlf])
  | @missingTargets before inner after start stop hopen hstop hgate htargets =>
    have hopen := hopen.crlf (List.pairwise_append.mp hclosed).1
    rw [List.map_append, List.map_cons, ScriptError.crlf_invalidContext, ← start.crlf_number closed]
    exact .missingTargets hopen (by rwa [SourceLine.crlf_first]) (by rwa [contents_crlf])
      (by rwa [contents_crlf])
  | @unterminated _ _ start hopen =>
    rw [ScriptError.crlf_unterminatedContext, ← start.crlf_number closed]
    exact .unterminated (hopen.crlf hclosed)

/-- The text of a line is cut from it where it stands. -/
theorem exists_cutFrom_of_mem {source : String} (h : l ∈ sourceLines source) :
    ∃ line, LineAt source l.number line ∧ CutFrom line l.text := by
  obtain ⟨line, hline, hl⟩ := (mem_sourceLines_iff source l).mp h
  obtain ⟨-, htext, -⟩ := (SourceLine.ofChars?_eq_some_iff l.number line l).mp hl
  rw [htext]
  exact ⟨line, hline, cutFrom_lineText ((SourceLine.exists_ofChars?_iff l.number line).mp ⟨l, hl⟩)⟩

/-- Every line with another behind it ends in a line feed. -/
theorem pairwise_number_le_count (source : String) :
    (sourceLines source).Pairwise fun l _ => l.number ≤ source.toList.count '\n' := by
  refine (pairwise_sourceLines source).imp_of_mem fun {l k} _ hk hlt => ?_
  obtain ⟨line, ⟨before, after, hsource, -, -, -, hnumber⟩, -⟩ :=
    (mem_sourceLines_iff source k).mp hk
  have hcount : before.count '\n' ≤ source.toList.count '\n' := by
    rw [hsource, List.append_assoc, List.count_append]
    exact Nat.le_add_right _ _
  omega

namespace Program

variable {source : String} {p : Program}

/-- With carriage returns before the line feeds, a script is read as the same program, but for the
texts that keep one. -/
theorem ofText_crlf_of_ok (h : ofText filter source = .ok p) :
    ofText filter (crlfText source) = .ok (p.crlf (source.toList.count '\n')) := by
  have hread := (ofLines_eq_ok_iff.mp h).crlf (pairwise_number_le_count source)
  rw [← sourceLines_crlf] at hread
  exact ofLines_eq_ok_iff.mpr hread

theorem ofText_crlf_of_error (h : ofText filter source = .error e) :
    ofText filter (crlfText source) = .error (e.crlf (source.toList.count '\n')) := by
  have hrefused := (ofLines_eq_error_iff.mp h).crlf (pairwise_number_le_count source)
  rw [← sourceLines_crlf] at hrefused
  exact ofLines_eq_error_iff.mpr hrefused

/-- The texts that a program keeps are cut from lines of its statements. -/
theorem exists_cutFrom_of_keptText (h : ofText filter source = .ok p) (hd : d ∈ p.lines)
    (ht : t ∈ d.statement.keptTexts) : ∃ n line,
      d.Covers (sourceLines source) n ∧ LineAt source n line ∧ CutFrom line t := by
  obtain ⟨front, part, back, hsplit, hread⟩ := (ofLines_eq_ok_iff.mp h).exists_part hd
  obtain ⟨l, hl, rfl⟩ := hread.exists_of_keptText ht
  have hmem : l ∈ front ++ part ++ back :=
    List.mem_append_left back (List.mem_append_right front hl)
  have hnumber := pairwise_sourceLines source
  rw [hsplit] at hnumber
  have hcovers := (hread.covers_iff hnumber hmem).mpr hl
  rw [← hsplit] at hcovers hmem
  obtain ⟨line, hline, hcut⟩ := exists_cutFrom_of_mem hmem
  exact ⟨l.number, line, hcovers, hline, hcut⟩

/-- The instruction that is refused is cut from the line that is named. -/
theorem exists_cutFrom_of_malformed {n : Nat} {reason : MalformedReason}
    (h : ofText filter source = .error (.malformed n t reason)) :
    ∃ line, LineAt source n line ∧ CutFrom line t := by
  have hrefused := ofLines_eq_error_iff.mp h
  generalize hlines : sourceLines source = ls at hrefused
  cases hrefused with
  | @faulty _ _ _ l _ _ _ hfault =>
    have hmem : l ∈ sourceLines source := by simp [hlines]
    cases hfault with
    | malformed => exact exists_cutFrom_of_mem hmem

theorem crlf_eq_self_iff (closed : Nat) : p.crlf closed = p ↔
    ∀ d ∈ p.lines, d.number ≤ closed → ∀ t ∈ d.statement.keptTexts, '#' ∉ t.toList := by
  have hlines : p.crlf closed = p ↔ p.lines.map (ProgramLine.crlf closed) = p.lines :=
    ⟨congrArg Program.lines, congrArg Program.mk⟩
  rw [hlines, map_eq_self_iff]
  refine forall₂_congr fun d _ => ?_
  rw [ProgramLine.crlf, ite_eq_right_iff]
  refine imp_congr_right fun _ => ?_
  rw [← Statement.crlf_eq_self_iff]
  exact ⟨congrArg ProgramLine.statement, congrArg (ProgramLine.mk d.number)⟩

/-- What a program keeps of its lines, and what a refusal quotes, is cut from the line where it
stands: no separator is left at its start, and at its end only what stands behind a comment. So with
carriage returns before the line feeds the program or the refusal is the same, but for a carriage
return behind each such text that has a hash and ends at a line feed. -/
theorem ofText_keptTexts (filter : Option LineFilter) (source : String) :
    (∀ p, ofText filter source = .ok p → ∀ d ∈ p.lines, ∀ t ∈ d.statement.keptTexts,
      ∃ n line, d.Covers (sourceLines source) n ∧ LineAt source n line ∧ CutFrom line t) ∧
    (∀ n t reason, ofText filter source = .error (.malformed n t reason) →
      ∃ line, LineAt source n line ∧ CutFrom line t) ∧
    (∀ p, ofText filter source = .ok p →
      ofText filter (crlfText source) = .ok (p.crlf (source.toList.count '\n')) ∧
      (ofText filter (crlfText source) = .ok p ↔ ∀ d ∈ p.lines,
        d.number ≤ source.toList.count '\n' → ∀ t ∈ d.statement.keptTexts, '#' ∉ t.toList)) ∧
    (∀ e, ofText filter source = .error e →
      ofText filter (crlfText source) = .error (e.crlf (source.toList.count '\n')) ∧
      (ofText filter (crlfText source) = .error e ↔ ∀ n t reason, e = .malformed n t reason →
        n ≤ source.toList.count '\n' → '#' ∉ t.toList)) := by
  refine ⟨fun p hp d hd t ht => exists_cutFrom_of_keptText hp hd ht,
    fun n t reason h => exists_cutFrom_of_malformed h, fun p hp => ?_, fun e he => ?_⟩
  · have hcrlf := ofText_crlf_of_ok hp
    rw [hcrlf, ← crlf_eq_self_iff]
    exact ⟨rfl, by rw [Except.ok.injEq]⟩
  · have hcrlf := ofText_crlf_of_error he
    rw [hcrlf, ← ScriptError.crlf_eq_self_iff]
    exact ⟨rfl, by rw [Except.error.injEq]⟩

def remarkedText : String := "Y q0 \n\tX q0 # idle \nX q1 "

def remarked : Program :=
  ⟨[⟨1, .gate .y "q0"⟩, ⟨2, .ignored "X q0 # idle "⟩, ⟨3, .ignored "X q1"⟩]⟩

theorem ofText_keptTexts_remarkedText : ofText (some ⟨["X"]⟩) remarkedText = .ok remarked ∧
    (∃ n line, LineAt remarkedText n line ∧ CutFrom line "X q0 # idle ") ∧
    ofText (some ⟨["X"]⟩) (crlfText remarkedText) = .ok (remarked.crlf 2) ∧
    ofText (some ⟨["X"]⟩) (crlfText remarkedText) ≠ .ok remarked := by
  have hread : ofText (some ⟨["X"]⟩) remarkedText = .ok remarked := by decide +kernel
  have hcount : remarkedText.toList.count '\n' = 2 := by decide +kernel
  obtain ⟨hkept, -, hcrlf, -⟩ := ofText_keptTexts (some ⟨["X"]⟩) remarkedText
  obtain ⟨n, line, -, hline, hcut⟩ := hkept remarked hread ⟨2, .ignored "X q0 # idle "⟩
    (by simp [remarked]) "X q0 # idle " (by simp [Statement.keptTexts])
  obtain ⟨hreturns, hsame⟩ := hcrlf remarked hread
  rw [hcount] at hreturns hsame
  refine ⟨hread, ⟨n, line, hline, hcut⟩, hreturns, fun h => ?_⟩
  exact hsame.mp h ⟨2, .ignored "X q0 # idle "⟩ (by simp [remarked]) le_rfl "X q0 # idle "
    (by simp [Statement.keptTexts]) (by decide)

/-- A line that is passed over keeps the blank behind its comment, and the carriage return of
another line end. -/
theorem ofText_blankComment :
    ofText (some ⟨["X"]⟩) "X Q1 # c \n" = .ok ⟨[⟨1, .ignored "X Q1 # c "⟩]⟩ ∧
    ofText (some ⟨["X"]⟩) "X Q1 # c\n" = .ok ⟨[⟨1, .ignored "X Q1 # c"⟩]⟩ ∧
    ofText (some ⟨["X"]⟩) (crlfText "X Q1 # c\n") = .ok ⟨[⟨1, .ignored "X Q1 # c\r"⟩]⟩ := by
  decide +kernel

end Program

end PulseScript
