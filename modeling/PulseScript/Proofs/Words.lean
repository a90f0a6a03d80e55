import Mathlib
import PulseScript.Script.Emission
import PulseScript.Script.Line

/-!
# Words on a line

A text can stand in a script as one word if nothing in it divides or ends words. Words
joined by single spaces are read back as those words, and lines joined into a script are
found again with their numbers.
-/
namespace PulseScript

/-- A text that a line can carry as one word. -/
def IsWord (s : String) : Prop :=
  s ≠ "" ∧ ∀ c ∈ s.toList, c ∉ [' ', '\t', '\r', '\n', '#']

namespace IsWord

variable {s : String}

theorem toList_ne_nil (h : IsWord s) : s.toList ≠ [] := by
  intro he
  exact h.1 (String.toList_eq_nil_iff.mp he)

theorem not_separator (h : IsWord s) : ∀ c ∈ s.toList, isSeparator c = false := by
  intro c hc
  have hn := h.2 c hc
  simp only [List.mem_cons, List.not_mem_nil, or_false, not_or] at hn
  simp [isSeparator, hn]

theorem ne_hash (h : IsWord s) : ∀ c ∈ s.toList, c ≠ '#' := by
  intro c hc he
  exact h.2 c hc (by simp [he])

theorem ne_newline (h : IsWord s) : ∀ c ∈ s.toList, c ≠ '\n' := by
  intro c hc he
  exact h.2 c hc (by simp [he])

theorem newline_notMem (h : IsWord s) : '\n' ∉ s.toList := fun hc => h.ne_newline _ hc rfl

end IsWord

/-- A run at the front of a text is the first of its runs. -/
theorem splitRuns_run_append (p : Char → Bool) (run : List Char) (hne : run ≠ [])
    (hrun : ∀ c ∈ run, p c = false) (d : Char) (hd : p d = true) (rest : List Char) :
    splitRuns p (run ++ d :: rest) = run :: splitRuns p rest := by
  induction run with
  | nil => exact absurd rfl hne
  | cons c cs ih =>
    have hc : p c = false := hrun c (by simp)
    cases cs with
    | nil => simp [splitRuns, hc, hd]
    | cons e es =>
      have he : p e = false := hrun e (by simp)
      have hs := ih (by simp) (fun x hx => hrun x (List.mem_cons_of_mem c hx))
      rw [List.cons_append, List.cons_append, splitRuns, if_neg (by simp [hc])]
      rw [List.cons_append] at hs
      simp [he, hs]

/-- A text that is one run has no other. -/
theorem splitRuns_run (p : Char → Bool) (run : List Char) (hne : run ≠ [])
    (hrun : ∀ c ∈ run, p c = false) : splitRuns p run = [run] := by
  induction run with
  | nil => exact absurd rfl hne
  | cons c cs ih =>
    have hc : p c = false := hrun c (by simp)
    cases cs with
    | nil => simp [splitRuns, hc]
    | cons e es =>
      have he : p e = false := hrun e (by simp)
      have hs := ih (by simp) (fun x hx => hrun x (List.mem_cons_of_mem c hx))
      rw [splitRuns, if_neg (by simp [hc])]
      simp [he, hs]

/-- Runs joined by single dividers are found again. -/
theorem splitRuns_intercalate (p : Char → Bool) (d : Char) (hd : p d = true)
    (runs : List (List Char)) (h : ∀ run ∈ runs, run ≠ [] ∧ ∀ c ∈ run, p c = false) :
    splitRuns p (List.intercalate [d] runs) = runs := by
  induction runs with
  | nil => simp [splitRuns]
  | cons run runs ih =>
    have hrun := h run (by simp)
    have hrest : ∀ r ∈ runs, r ≠ [] ∧ ∀ c ∈ r, p c = false :=
      fun r hr => h r (List.mem_cons_of_mem run hr)
    cases runs with
    | nil => simpa using splitRuns_run p run hrun.1 hrun.2
    | cons next more =>
      rw [List.intercalate_cons_cons]
      have hi := splitRuns_run_append p run hrun.1 hrun.2 d hd (List.intercalate [d] (next :: more))
      simpa [ih hrest] using hi

theorem splitRuns_eq_nil_iff (p : Char → Bool) (cs : List Char) :
    splitRuns p cs = [] ↔ ∀ c ∈ cs, p c = true := by
  fun_induction splitRuns p cs <;> simp_all

/-- A run holds something, and nothing that divides. -/
theorem of_mem_splitRuns {p : Char → Bool} {cs run : List Char} (h : run ∈ splitRuns p cs) :
    run ≠ [] ∧ ∀ c ∈ run, p c = false := by
  fun_induction splitRuns p cs generalizing run with
  | case1 => simp at h
  | case2 c cs hc ih => exact ih h
  | case3 c hc => simp_all
  | case4 c hc d cs hd ih =>
    rcases List.mem_cons.mp h with rfl | h
    · simpa using hc
    · exact ih h
  | case5 c hc d cs hd hnone ih => simp_all
  | case6 c hc d cs hd first others hfirst ih =>
    rw [hfirst] at ih h
    rcases List.mem_cons.mp h with rfl | h
    · have hrun := (ih List.mem_cons_self).2
      exact ⟨by simp, List.forall_mem_cons.mpr ⟨by simpa using hc, hrun⟩⟩
    · exact ih (List.mem_cons_of_mem first h)

/-- Every character of joined words is in a word or is the space between two. -/
theorem mem_toList_intercalate {c : Char} {ws : List String}
    (h : c ∈ (" ".intercalate ws).toList) : c = ' ' ∨ ∃ w ∈ ws, c ∈ w.toList := by
  induction ws with
  | nil => simp at h
  | cons w ws ih =>
    cases ws with
    | nil => exact .inr ⟨w, by simp, by simpa using h⟩
    | cons v vs =>
      rw [String.intercalate_cons_cons] at h
      simp only [String.toList_append, List.mem_append] at h
      rcases h with (h | h) | h
      · exact .inr ⟨w, by simp, h⟩
      · exact .inl (by simpa using h)
      · rcases ih h with h | ⟨u, hu, hc⟩
        · exact .inl h
        · exact .inr ⟨u, List.mem_cons_of_mem w hu, hc⟩

theorem ne_hash_of_mem_words {ws : List String} (h : ∀ w ∈ ws, IsWord w) :
    ∀ c ∈ (" ".intercalate ws).toList, c ≠ '#' := by
  intro c hc
  rcases mem_toList_intercalate hc with rfl | ⟨w, hw, hcw⟩
  · decide
  · exact (h w hw).ne_hash c hcw

theorem newline_notMem_words {ws : List String} (h : ∀ w ∈ ws, IsWord w) :
    '\n' ∉ (" ".intercalate ws).toList := by
  intro hc
  rcases mem_toList_intercalate hc with hs | ⟨w, hw, hcw⟩
  · exact absurd hs (by decide)
  · exact (h w hw).ne_newline _ hcw rfl

/-- The words of joined words are those words. -/
theorem lineWords_words {ws : List String} (h : ∀ w ∈ ws, IsWord w) :
    lineWords (" ".intercalate ws).toList = ws := by
  have htake : (" ".intercalate ws).toList.takeWhile (· != '#') = (" ".intercalate ws).toList :=
    List.takeWhile_eq_self_iff.mpr (fun c hc => by simpa using ne_hash_of_mem_words h c hc)
  have hruns : ∀ run ∈ ws.map String.toList, run ≠ [] ∧ ∀ c ∈ run, isSeparator c = false := by
    intro run hr
    obtain ⟨w, hw, rfl⟩ := List.mem_map.mp hr
    exact ⟨(h w hw).toList_ne_nil, (h w hw).not_separator⟩
  have hsplit : splitRuns isSeparator (" ".intercalate ws).toList = ws.map String.toList := by
    rw [String.toList_intercalate]
    exact splitRuns_intercalate isSeparator ' ' (by decide) _ hruns
  rw [lineWords, htake, hsplit]
  simp [Function.comp_def]

/-- The tokens of joined words are those words. -/
theorem lineTokens_words {ws : List String} (h : ∀ w ∈ ws, IsWord w) :
    lineTokens (" ".intercalate ws).toList = ws.map .word := by
  have hdrop : (" ".intercalate ws).toList.dropWhile (· != '#') = [] := by
    rw [List.dropWhile_eq_nil_iff]
    exact fun c hc => by simpa using ne_hash_of_mem_words h c hc
  simp only [lineTokens, lineWords_words h, lineComment, hdrop, List.append_nil]

/-- A line that starts with a hash is one comment. -/
theorem ofChars?_hash (number : Nat) (cs : List Char) :
    SourceLine.ofChars? number ('#' :: cs) =
      some ⟨number, lineText ('#' :: cs),
        .comment (String.ofList (dropEndWhile isBlank ('#' :: cs))), []⟩ := by
  simp [SourceLine.ofChars?, lineTokens, lineWords, lineComment, splitRuns]

theorem SourceLine.ofChars?_eq_some_iff (n : Nat) (line : List Char) (l : SourceLine) :
    SourceLine.ofChars? n line = some l ↔
      l.number = n ∧ l.text = lineText line ∧ lineTokens line = l.first :: l.rest := by
  obtain ⟨number, text, first, rest⟩ := l
  unfold ofChars?
  cases lineTokens line with
  | nil => simp
  | cons token tokens => simp [eq_comm]

theorem SourceLine.ofChars?_eq_none_iff (n : Nat) (line : List Char) :
    SourceLine.ofChars? n line = none ↔ lineTokens line = [] := by
  unfold ofChars?
  cases lineTokens line <;> simp

def firstToken? (line : String) : Option Token := (lineTokens line.toList).head?

theorem firstToken?_of_ofChars? {n : Nat} {line : String} {l : SourceLine}
    (h : SourceLine.ofChars? n line.toList = some l) : firstToken? line = some l.first := by
  obtain ⟨-, -, htokens⟩ := (SourceLine.ofChars?_eq_some_iff n _ l).mp h
  rw [firstToken?, htokens, List.head?_cons]

theorem exists_ofChars?_of_firstToken? {line : String} {token : Token} (n : Nat)
    (h : firstToken? line = some token) :
    ∃ l, SourceLine.ofChars? n line.toList = some l ∧ l.text = lineText line.toList ∧
      l.first = token := by
  obtain ⟨tokens, htokens⟩ := List.head?_eq_some_iff.mp h
  exact ⟨⟨n, lineText line.toList, token, tokens⟩,
    (SourceLine.ofChars?_eq_some_iff n _ _).mpr ⟨rfl, rfl, htokens⟩, rfl, rfl⟩

/-- The word before the first space of a line is its first token, and what follows has the others. -/
theorem lineTokens_word_space {w : String} (hw : IsWord w) (rest : String) :
    lineTokens (w ++ " " ++ rest).toList = .word w :: lineTokens rest.toList := by
  have hword : ∀ c ∈ w.toList, (c != '#') = true := fun c hc => by simpa using hw.ne_hash c hc
  have hline : (w ++ " " ++ rest).toList = w.toList ++ ' ' :: rest.toList := by simp
  have hruns := splitRuns_run_append isSeparator w.toList hw.toList_ne_nil hw.not_separator ' '
    (by decide) (rest.toList.takeWhile (· != '#'))
  have hspace : (' ' != '#') = true := by decide
  rw [hline, lineTokens, lineTokens, lineWords, lineComment, List.takeWhile_append_of_pos hword,
    List.dropWhile_append_of_pos hword, List.takeWhile_cons, List.dropWhile_cons, if_pos hspace,
    if_pos hspace, hruns]
  simp [lineWords, lineComment]

/-- A line starts with the word before its first space, whatever follows there. -/
theorem firstToken?_word {w : String} (hw : IsWord w) (rest : String) :
    firstToken? (w ++ " " ++ rest) = some (.word w) := by
  rw [firstToken?, lineTokens_word_space hw, List.head?_cons]

def numberedLines (start : Nat) (lines : List String) : List SourceLine :=
  ((lines.map String.toList).zipIdx start).filterMap fun l => SourceLine.ofChars? l.2 l.1

theorem numberedLines_append (start : Nat) (ls ks : List String) :
    numberedLines start (ls ++ ks) =
      numberedLines start ls ++ numberedLines (start + ls.length) ks := by
  simp [numberedLines, List.zipIdx_append]

theorem numberedLines_cons (start : Nat) (l : String) (ls : List String) :
    numberedLines start (l :: ls) = numberedLines start [l] ++ numberedLines (start + 1) ls :=
  numberedLines_append start [l] ls

theorem numberedLines_singleton (start : Nat) (l : String) :
    numberedLines start [l] = (SourceLine.ofChars? start l.toList).toList := by
  simp only [numberedLines, List.map_cons, List.map_nil, List.zipIdx_cons, List.zipIdx_nil,
    List.filterMap_cons, List.filterMap_nil]
  cases SourceLine.ofChars? start l.toList <;> rfl

theorem numberedLines_cons_ofChars? (n : Nat) (line : String) (lines : List String) :
    numberedLines n (line :: lines) =
      (SourceLine.ofChars? n line.toList).toList ++ numberedLines (n + 1) lines := by
  rw [numberedLines_cons, numberedLines_singleton]

/-- The lines of a text, with those that have no token. -/
def textLines (source : String) : List String := (splitLines source.toList).map String.ofList

theorem sourceLines_eq_numberedLines (source : String) :
    sourceLines source = numberedLines 1 (textLines source) := by
  have hsame : (textLines source).map String.toList = splitLines source.toList := by
    simp [textLines, Function.comp_def]
  rw [numberedLines, hsame, sourceLines]

theorem splitLines_line (line rest : List Char) (h : '\n' ∉ line) :
    splitLines (line ++ '\n' :: rest) = line :: splitLines rest := by
  induction line with
  | nil => simp [splitLines]
  | cons c cs ih =>
    have hc : c ≠ '\n' := by intro he; exact h (by simp [he])
    have hs := ih (by intro hm; exact h (List.mem_cons_of_mem c hm))
    simp only [splitLines] at hs ⊢
    simp only [List.cons_append, List.foldr_cons, if_neg hc, hs]

theorem splitLines_last (line : List Char) (h : '\n' ∉ line) : splitLines line = [line] := by
  induction line with
  | nil => rfl
  | cons c cs ih =>
    obtain ⟨hc, hcs⟩ := not_or.mp (List.mem_cons.not.mp h)
    have hlast := ih hcs
    simp only [splitLines] at hlast ⊢
    simp only [List.foldr_cons, if_neg (Ne.symm hc), hlast]

/-- Lines joined by line feeds, at least one, are the lines of the text. -/
theorem textLines_intercalate {lines : List String} (hne : lines ≠ [])
    (h : ∀ l ∈ lines, '\n' ∉ l.toList) : textLines ("\n".intercalate lines) = lines := by
  induction lines with
  | nil => exact absurd rfl hne
  | cons line lines ih =>
    obtain ⟨hline, hlines⟩ := List.forall_mem_cons.mp h
    cases lines with
    | nil => simp [textLines, splitLines_last _ hline]
    | cons next lines =>
      have hrest := ih (by simp) hlines
      rw [textLines] at hrest
      rw [String.intercalate_cons_cons, textLines, String.toList_append, String.toList_append,
        List.append_assoc, show "\n".toList = ['\n'] from rfl, List.singleton_append,
        splitLines_line _ _ hline, List.map_cons, hrest, String.ofList_toList]

/-- The lines of a text in which each of them is closed, and the empty one behind. -/
theorem splitLines_closed (lines : List String) (h : ∀ l ∈ lines, '\n' ∉ l.toList) :
    splitLines (lines.flatMap fun l => l.toList ++ ['\n']) = lines.map String.toList ++ [[]] := by
  induction lines with
  | nil => rfl
  | cons l ls ih =>
    have hs := ih (fun k hk => h k (List.mem_cons_of_mem l hk))
    rw [List.flatMap_cons, List.append_assoc, List.singleton_append,
      splitLines_line _ _ (h l (by simp)), hs]
    rfl

/-- The lines of a script are found again with their numbers. -/
theorem sourceLines_scriptText (lines : List String) (h : ∀ l ∈ lines, '\n' ∉ l.toList) :
    sourceLines (scriptText lines) = numberedLines 1 lines := by
  cases lines with
  | nil => rfl
  | cons l ls =>
    have hs := splitLines_closed (l :: ls) h
    simp only [sourceLines, scriptText, List.isEmpty_cons, Bool.false_eq_true, if_false,
      String.toList_ofList, hs, List.zipIdx_append, List.filterMap_append, numberedLines]
    simp [SourceLine.ofChars?, lineTokens, lineWords, lineComment, splitRuns]

end PulseScript
