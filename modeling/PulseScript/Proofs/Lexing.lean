import Mathlib
import PulseScript.Proofs.LinePlaces

/-!
# Lines and their tokens

A script is divided from its front into pieces by longest match: separators, line feeds, comments
and words. Every character starts a piece of exactly one of these patterns, so a text is always
divided, in one way, and nothing in it is invalid. Only a line feed holds a line feed, so the pieces
between two of them are those of a line. They give the words, the comment and the text of the line
as looking for its hash first does.
-/
namespace PulseScript

inductive TokenPattern where
  | gap | newline | comment | word
  deriving DecidableEq, Repr

namespace TokenPattern

def starts : TokenPattern → Char → Bool
  | gap, c => isSeparator c
  | newline, c => c == '\n'
  | comment, c => c == '#'
  | word, c => !isSeparator c && c != '\n' && c != '#'

def goesOn : TokenPattern → Char → Bool
  | gap, c => isSeparator c
  | newline, _ => false
  | comment, c => c != '\n'
  | word, c => !isSeparator c && c != '\n' && c != '#'

/-- The texts that a pattern describes: a character that starts a piece, and any number of those
that go on with it. -/
def Matches (p : TokenPattern) : List Char → Prop
  | [] => False
  | c :: cs => p.starts c = true ∧ ∀ d ∈ cs, p.goesOn d = true

variable {p q : TokenPattern} {c : Char} {run rest : List Char}

theorem exists_starts (c : Char) : ∃ p : TokenPattern, p.starts c = true := by
  by_cases hgap : isSeparator c = true
  · exact ⟨gap, hgap⟩
  by_cases hline : c = '\n'
  · exact ⟨newline, by simp [starts, hline]⟩
  by_cases hhash : c = '#'
  · exact ⟨comment, by simp [starts, hhash]⟩
  · exact ⟨word, by simp [starts, hgap, hline, hhash]⟩

theorem starts_inj (hp : p.starts c = true) (hq : q.starts c = true) : p = q := by
  have hline : isSeparator '\n' = false := rfl
  have hhash : isSeparator '#' = false := rfl
  cases p <;> cases q <;> first | rfl | skip
  all_goals
    simp only [starts, Bool.and_eq_true, Bool.not_eq_true', beq_iff_eq, bne_iff_ne] at hp hq
    simp_all

theorem goesOn_newline (p : TokenPattern) : p.goesOn '\n' = false := by
  cases p <;> rfl

/-- A piece is the longest that any pattern has if the text does not go on with it. -/
theorem longest_iff (hstart : p.starts c = true) (hrun : ∀ d ∈ run, p.goesOn d = true) :
    (∀ q front, Matches q front → front <+: c :: run ++ rest →
      front.length ≤ (c :: run).length) ↔ ∀ d ∈ rest.head?, p.goesOn d = false := by
  constructor
  · intro hlongest d hd
    obtain ⟨more, rfl⟩ := List.head?_eq_some_iff.mp hd
    by_contra hgoes
    have hmatch : p.Matches (c :: (run ++ [d])) :=
      ⟨hstart, List.forall_mem_append.mpr ⟨hrun, by simpa using hgoes⟩⟩
    have hlength := hlongest p _ hmatch ⟨more, by simp⟩
    simp at hlength
  · intro hend q front hmatch hfront
    cases front with
    | nil => exact absurd hmatch (by simp [Matches])
    | cons b front =>
      obtain ⟨hb, hgoes⟩ := hmatch
      rw [List.cons_append, List.cons_prefix_cons] at hfront
      obtain ⟨rfl, hfront⟩ := hfront
      obtain rfl := starts_inj hstart hb
      -- a longer piece would go on with what stands behind the run
      rcases List.prefix_or_prefix_of_prefix hfront (List.prefix_append run rest) with hle | hle
      · simpa using hle.length_le
      · obtain ⟨more, rfl⟩ := hle
        cases more with
        | nil => simp
        | cons d more =>
          rw [List.prefix_append_right_inj] at hfront
          obtain ⟨tail, rfl⟩ := hfront
          have hstop := hend d rfl
          rw [hgoes d (by simp)] at hstop
          cases hstop

end TokenPattern

inductive Lexeme where
  | piece (pattern : TokenPattern) (text : List Char)
  | invalid (text : List Char)
  deriving DecidableEq, Repr

/-- The text is divided from its front: the next piece is the longest that any pattern has there,
and where none has one, something is invalid. -/
inductive Lexes : List Char → List Lexeme → Prop where
  | nil : Lexes [] []
  | piece {p : TokenPattern} {text rest : List Char} {ls : List Lexeme} (hmatch : p.Matches text)
    (hlongest : ∀ q front, TokenPattern.Matches q front → front <+: text ++ rest →
      front.length ≤ text.length)
    (h : Lexes rest ls) : Lexes (text ++ rest) (.piece p text :: ls)
  | invalid {text rest : List Char} {ls : List Lexeme} (hne : text ≠ [])
    (hnone : ∀ q front, TokenPattern.Matches q front → ¬ front <+: text ++ rest)
    (h : Lexes rest ls) : Lexes (text ++ rest) (.invalid text :: ls)

namespace Lexes

variable {p : TokenPattern} {c : Char} {cs run rest : List Char} {ls : List Lexeme}

theorem cons (hstart : p.starts c = true) (hrun : ∀ d ∈ run, p.goesOn d = true)
    (hend : ∀ d ∈ rest.head?, p.goesOn d = false) (h : Lexes rest ls) :
    Lexes (c :: (run ++ rest)) (.piece p (c :: run) :: ls) := by
  have hmatch : p.Matches (c :: run) := ⟨hstart, hrun⟩
  exact .piece hmatch ((TokenPattern.longest_iff hstart hrun).mpr hend) h

/-- At every character some piece starts, and it reaches as far as its pattern goes on. -/
theorem exists_piece (h : Lexes (c :: cs) ls) : ∃ p run rest ls', cs = run ++ rest ∧
    ls = .piece p (c :: run) :: ls' ∧ p.starts c = true ∧ (∀ d ∈ run, p.goesOn d = true) ∧
    (∀ d ∈ rest.head?, p.goesOn d = false) ∧ Lexes rest ls' := by
  generalize htext : c :: cs = text at h
  cases h with
  | nil => cases htext
  | @piece p text rest ls hmatch hlongest h =>
    cases text with
    | nil => exact absurd hmatch (by simp [TokenPattern.Matches])
    | cons b run =>
      obtain ⟨rfl, rfl⟩ := List.cons.inj htext
      obtain ⟨hstart, hrun⟩ := hmatch
      have hend := (TokenPattern.longest_iff hstart hrun).mp hlongest
      exact ⟨p, run, rest, ls, rfl, rfl, hstart, hrun, hend, h⟩
  | @invalid text rest ls hne hnone h =>
    obtain ⟨p, hp⟩ := TokenPattern.exists_starts c
    have hmatch : p.Matches [c] := ⟨hp, by simp⟩
    rw [← htext] at hnone
    exact absurd ⟨cs, rfl⟩ (hnone p [c] hmatch)

theorem eq_nil (h : Lexes [] ls) : ls = [] := by
  generalize htext : ([] : List Char) = text at h
  cases h with
  | nil => rfl
  | piece hmatch =>
    obtain ⟨rfl, -⟩ := List.append_eq_nil_iff.mp htext.symm
    exact absurd hmatch (by simp [TokenPattern.Matches])
  | invalid hne => exact absurd (List.append_eq_nil_iff.mp htext.symm).1 hne

/-- Induction on the pieces of a text. -/
theorem pieces_induction {P : ∀ cs ls, Lexes cs ls → Prop} (nil : P [] [] .nil)
    (piece : ∀ p c run rest ls (hstart : TokenPattern.starts p c = true)
      (hrun : ∀ d ∈ run, p.goesOn d = true) (hend : ∀ d ∈ rest.head?, p.goesOn d = false)
      (h : Lexes rest ls), P rest ls h → P _ _ (.cons hstart hrun hend h))
    {cs : List Char} {ls : List Lexeme} (h : Lexes cs ls) : P cs ls h := by
  induction hn : cs.length using Nat.strongRecOn generalizing cs ls with
  | ind n ih =>
    cases cs with
    | nil =>
      obtain rfl := h.eq_nil
      exact nil
    | cons c cs =>
      obtain ⟨p, run, rest, ls', rfl, rfl, hstart, hrun, hend, hrest⟩ := h.exists_piece
      rw [List.length_cons, List.length_append] at hn
      exact piece p c run rest ls' hstart hrun hend hrest (ih rest.length (by omega) hrest rfl)

/-- Nothing in a text is invalid. -/
theorem invalid_notMem (h : Lexes cs ls) (text : List Char) : .invalid text ∉ ls := by
  induction h using pieces_induction with
  | nil => simp
  | piece p c run rest ls _ _ _ _ ih => simpa using ih

/-- Every text is divided. -/
theorem exists_lexes (cs : List Char) : ∃ ls, Lexes cs ls := by
  induction hn : cs.length using Nat.strongRecOn generalizing cs with
  | ind n ih =>
    cases cs with
    | nil => exact ⟨[], .nil⟩
    | cons c cs =>
      obtain ⟨p, hp⟩ := TokenPattern.exists_starts c
      have hsplit := List.takeWhile_append_dropWhile (p := p.goesOn) (l := cs)
      have hlength := List.length_dropWhile_le p.goesOn cs
      rw [List.length_cons] at hn
      obtain ⟨ls, hls⟩ := ih _ (by omega) (cs.dropWhile p.goesOn) rfl
      have hend : ∀ d ∈ (cs.dropWhile p.goesOn).head?, p.goesOn d = false := by
        intro d hd
        have hhead := List.head?_dropWhile_not p.goesOn cs
        rw [hd] at hhead
        simpa using hhead
      have hrun : ∀ d ∈ cs.takeWhile p.goesOn, p.goesOn d = true :=
        fun d hd => List.mem_takeWhile_imp hd
      have hcons := Lexes.cons hp hrun hend hls
      rw [hsplit] at hcons
      exact ⟨_, hcons⟩

/-- What holds no line feed and starts a text is part of its first line. -/
theorem exists_line_append {line run rest' : List Char}
    (h : line ++ '\n' :: rest = run ++ rest') (hrun : '\n' ∉ run) :
    ∃ more, line = run ++ more ∧ rest' = more ++ '\n' :: rest := by
  rcases List.append_eq_append_iff.mp h with ⟨more, rfl, hmore⟩ | ⟨more, hline, hrest⟩
  · cases more with
    | nil => exact ⟨[], by simp, hmore.symm⟩
    | cons d more =>
      obtain ⟨rfl, -⟩ := List.cons.inj hmore
      exact absurd (by simp) hrun
  · exact ⟨more, hline, hrest⟩

/-- No piece reaches over the end of a line, so the pieces of a text are those of its first line,
the line feed, and those of the rest. -/
theorem exists_split {line : List Char} (hline : '\n' ∉ line)
    (h : Lexes (line ++ '\n' :: rest) ls) : ∃ ps ls',
      ls = ps ++ .piece .newline ['\n'] :: ls' ∧ Lexes line ps ∧ Lexes rest ls' := by
  induction hn : line.length using Nat.strongRecOn generalizing line ls with
  | ind n ih =>
    cases line with
    | nil =>
      obtain ⟨p, run, rest', ls', hsplit, rfl, hstart, hrun, -, h⟩ := h.exists_piece
      obtain rfl : p = .newline := TokenPattern.starts_inj hstart rfl
      cases run with
      | nil =>
        obtain rfl : rest = rest' := hsplit
        exact ⟨[], ls', rfl, .nil, h⟩
      | cons d run => exact absurd (hrun d (by simp)) (by simp [TokenPattern.goesOn])
    | cons c line =>
      obtain ⟨-, hline⟩ := not_or.mp (List.mem_cons.not.mp hline)
      obtain ⟨p, run, rest', ls', hsplit, rfl, hstart, hrun, hend, h⟩ := h.exists_piece
      have hnone : '\n' ∉ run := by
        intro hmem
        have hgoes := hrun '\n' hmem
        rw [TokenPattern.goesOn_newline] at hgoes
        cases hgoes
      obtain ⟨more, rfl, rfl⟩ := exists_line_append hsplit hnone
      rw [List.mem_append, not_or] at hline
      rw [List.length_cons, List.length_append] at hn
      obtain ⟨ps, ls'', rfl, hps, hrest⟩ := ih more.length (by omega) hline.2 h rfl
      have hstop : ∀ d ∈ more.head?, p.goesOn d = false := by
        intro d hd
        obtain ⟨tail, rfl⟩ := List.head?_eq_some_iff.mp hd
        exact hend d rfl
      exact ⟨_ :: ps, ls'', rfl, .cons hstart hrun hstop hps, hrest⟩

end Lexes

inductive LinePieces : List Char → List Lexeme → Prop where
  | nil : LinePieces [] []
  | gap {text rest : List Char} {ps : List Lexeme} (hne : text ≠ [])
    (hgap : ∀ c ∈ text, isSeparator c = true) (h : LinePieces rest ps) :
    LinePieces (text ++ rest) (.piece .gap text :: ps)
  | comment {run : List Char} : LinePieces ('#' :: run) [.piece .comment ('#' :: run)]
  | word {w : String} {rest : List Char} {ps : List Lexeme} (hw : IsWord w)
    (hrest : ∀ c ∈ rest.head?, isSeparator c = true ∨ c = '#') (h : LinePieces rest ps) :
    LinePieces (w.toList ++ rest) (.piece .word w.toList :: ps)

theorem TokenPattern.isWord_of_word {c : Char} {run : List Char} (hstart : word.starts c = true)
    (hrun : ∀ d ∈ run, word.goesOn d = true) : IsWord (String.ofList (c :: run)) := by
  have hall : ∀ d ∈ c :: run, word.goesOn d = true := List.forall_mem_cons.mpr ⟨hstart, hrun⟩
  refine ⟨by simp, fun d hd => ?_⟩
  rw [String.toList_ofList] at hd
  have hword := hall d hd
  simp only [goesOn, isSeparator, Bool.and_eq_true, Bool.not_eq_true', Bool.or_eq_false_iff,
    beq_eq_false_iff_ne, bne_iff_ne] at hword
  simp [hword]

/-- A text without a line feed has the pieces of a line. -/
theorem Lexes.linePieces {line : List Char} {ps : List Lexeme} (h : Lexes line ps)
    (hline : '\n' ∉ line) : LinePieces line ps := by
  induction h using pieces_induction with
  | nil => exact .nil
  | piece p c run rest ls hstart hrun hend h ih =>
    obtain ⟨hc, hline⟩ := not_or.mp (List.mem_cons.not.mp hline)
    obtain ⟨-, hrest⟩ := not_or.mp (List.mem_append.not.mp hline)
    have hpieces := ih hrest
    cases p with
    | gap =>
      exact .gap (List.cons_ne_nil c run) (List.forall_mem_cons.mpr ⟨hstart, hrun⟩) hpieces
    | newline => exact absurd (by simpa [TokenPattern.starts] using hstart) (Ne.symm hc)
    | comment =>
      obtain rfl : c = '#' := by simpa [TokenPattern.starts] using hstart
      -- only a line feed could stand behind
      cases rest with
      | nil =>
        obtain rfl := h.eq_nil
        rw [List.append_nil]
        exact .comment
      | cons d rest =>
        obtain rfl : d = '\n' := by simpa [TokenPattern.goesOn] using hend d rfl
        exact absurd (by simp) hrest
    | word =>
      have hstop : ∀ d ∈ rest.head?, isSeparator d = true ∨ d = '#' := by
        intro d hd
        obtain ⟨more, rfl⟩ := List.head?_eq_some_iff.mp hd
        have hno := hend d rfl
        simp only [TokenPattern.goesOn, Bool.and_eq_false_iff, Bool.not_eq_false',
          bne_eq_false_iff_eq] at hno
        rcases hno with (hno | rfl) | hno
        · exact .inl hno
        · exact absurd (by simp) hrest
        · exact .inr hno
      simpa using LinePieces.word (TokenPattern.isWord_of_word hstart hrun) hstop hpieces

namespace Lexeme

/-- The token of a piece, if it is not passed over; a comment without the blank space at its end. -/
def token? : Lexeme → Option Token
  | piece .comment cs => some (.comment (String.ofList (dropEndWhile isBlank cs)))
  | piece .word cs => some (.word (String.ofList cs))
  | _ => none

def text : Lexeme → List Char
  | piece _ cs => cs
  | invalid cs => cs

def isNewline : Lexeme → Bool
  | piece .newline _ => true
  | _ => false

end Lexeme

/-- The pieces from the first token to the last. -/
def tokenSpan (ls : List Lexeme) : List Lexeme :=
  (ls.dropWhile (·.token?.isNone)).rdropWhile (·.token?.isNone)

/-- The line with the tokens among its pieces, unless there are none. Its text is that of the pieces
from the first token to the last. -/
def SourceLine.ofPieces? (number : Nat) (ls : List Lexeme) : Option SourceLine :=
  match ls.filterMap Lexeme.token? with
  | [] => none
  | first :: rest => some ⟨number, String.ofList ((tokenSpan ls).flatMap Lexeme.text), first, rest⟩

def lexedLines (ls : List Lexeme) : List SourceLine :=
  ((ls.splitOnP Lexeme.isNewline).zipIdx 1).filterMap fun l => SourceLine.ofPieces? l.2 l.1

section Pieces

variable {line : List Char} {ps : List Lexeme}

theorem lineTokens_gap {gap : List Char} (hgap : ∀ c ∈ gap, isSeparator c = true) :
    lineTokens (gap ++ line) = lineTokens line := by
  have hpadded : lineTokens (gap ++ line ++ []) = lineTokens line :=
    lineTokens_padded hgap (by simp)
  rwa [List.append_nil] at hpadded

/-- A word at the front of a line, up to a separator, the comment or the end. -/
theorem lineTokens_word {w rest : List Char} (hne : w ≠ [])
    (hw : ∀ c ∈ w, isSeparator c = false ∧ c ≠ '#')
    (hend : ∀ d ∈ rest.head?, isSeparator d = true ∨ d = '#') :
    lineTokens (w ++ rest) = .word (String.ofList w) :: lineTokens rest := by
  have hhash : ∀ c ∈ w, (c != '#') = true := fun c hc => by simpa using (hw c hc).2
  have hruns : splitRuns isSeparator (w ++ rest.takeWhile (· != '#')) =
      w :: splitRuns isSeparator (rest.takeWhile (· != '#')) := by
    have hword : ∀ c ∈ w, isSeparator c = false := fun c hc => (hw c hc).1
    cases htake : rest.takeWhile (· != '#') with
    | nil =>
      rw [List.append_nil, splitRuns_run isSeparator w hne hword]
      rfl
    | cons d more =>
      have hd : isSeparator d = true := by
        cases rest with
        | nil => simp at htake
        | cons e rest =>
          rw [List.takeWhile_cons] at htake
          split at htake
          · obtain ⟨rfl, -⟩ := List.cons.inj htake
            exact (hend e rfl).resolve_right (by simp_all)
          · cases htake
      rw [splitRuns_run_append isSeparator w hne hword d hd, splitRuns_cons_of_pos hd]
  rw [lineTokens, lineTokens, lineWords, lineWords, lineComment, lineComment,
    List.takeWhile_append_of_pos hhash, List.dropWhile_append_of_pos hhash, hruns]
  rfl

/-- The pieces of a line give its words and its comment. -/
theorem LinePieces.filterMap_token? (h : LinePieces line ps) :
    ps.filterMap Lexeme.token? = lineTokens line := by
  induction h with
  | nil => rfl
  | gap hne hgap h ih =>
    rw [List.filterMap_cons, lineTokens_gap hgap]
    exact ih
  | comment => simp [Lexeme.token?, lineTokens, lineWords, lineComment, splitRuns]
  | @word w rest ps hw hrest h ih =>
    have hchars : ∀ c ∈ w.toList, isSeparator c = false ∧ c ≠ '#' :=
      fun c hc => ⟨hw.not_separator c hc, hw.ne_hash c hc⟩
    rw [lineTokens_word hw.toList_ne_nil hchars hrest, ← ih]
    rfl

theorem rdropWhile_append {α : Type} (p : α → Bool) (xs ys : List α) :
    (xs ++ ys).rdropWhile p =
      if ys.rdropWhile p = [] then xs.rdropWhile p else xs ++ ys.rdropWhile p := by
  simp only [List.rdropWhile, List.reverse_append, List.dropWhile_append, List.isEmpty_iff,
    List.reverse_eq_nil_iff]
  split <;> simp

/-- The line without the separators at its end, which belong to the comment if there is one. -/
def trimLine (line : List Char) : List Char :=
  if '#' ∈ line then line else line.rdropWhile isSeparator

theorem trimLine_append {front : List Char} (h : '#' ∉ front) (rest : List Char) :
    trimLine (front ++ rest) =
      if trimLine rest = [] then front.rdropWhile isSeparator else front ++ trimLine rest := by
  by_cases hrest : '#' ∈ rest
  · have hne : rest ≠ [] := List.ne_nil_of_mem hrest
    simp [trimLine, hrest, hne]
  · simp only [trimLine, List.mem_append, h, hrest, or_self, if_false, rdropWhile_append]

theorem hash_mem_dropWhile (line : List Char) : '#' ∈ line.dropWhile isSeparator ↔ '#' ∈ line := by
  have hfront : ∀ c ∈ line.takeWhile isSeparator, c ≠ '#' := fun c hc => by
    simpa using ne_hash_of_isSeparator (List.mem_takeWhile_imp hc)
  conv_rhs => rw [← List.takeWhile_append_dropWhile (p := isSeparator) (l := line)]
  rw [List.mem_append]
  exact (or_iff_right fun h => hfront '#' h rfl).symm

theorem lineText_eq (line : List Char) :
    lineText line = String.ofList (trimLine (line.dropWhile isSeparator)) := by
  simp only [lineText, trimLine, List.contains_eq_mem, decide_eq_true_eq, hash_mem_dropWhile]
  rfl

theorem LinePieces.text_ne_nil (h : LinePieces line ps) : ∀ l ∈ ps, l.text ≠ [] := by
  induction h with
  | nil => simp
  | gap hne hgap h ih => exact List.forall_mem_cons.mpr ⟨hne, ih⟩
  | comment => simp [Lexeme.text]
  | word hw hrest h ih => exact List.forall_mem_cons.mpr ⟨hw.toList_ne_nil, ih⟩

/-- The pieces up to the last token. -/
def upToToken (ps : List Lexeme) : List Lexeme := ps.rdropWhile (·.token?.isNone)

theorem upToToken_cons (l : Lexeme) (ps : List Lexeme) : upToToken (l :: ps) =
    if upToToken ps = [] then [l].rdropWhile (·.token?.isNone) else l :: upToToken ps := by
  rw [upToToken, ← List.singleton_append, rdropWhile_append]
  rfl

/-- If there is a token, there is something up to it. -/
theorem LinePieces.upToToken_eq_nil_iff (h : LinePieces line ps) :
    upToToken ps = [] ↔ (upToToken ps).flatMap Lexeme.text = [] := by
  rw [List.flatMap_eq_nil_iff]
  refine ⟨fun hps => by simp [hps], fun hps => List.eq_nil_iff_forall_not_mem.mpr ?_⟩
  intro l hl
  exact h.text_ne_nil l ((List.rdropWhile_prefix _ ps).subset hl) (hps l hl)

/-- The pieces up to the last token hold the line without the separators at its end. -/
theorem LinePieces.flatMap_upToToken (h : LinePieces line ps) :
    (upToToken ps).flatMap Lexeme.text = trimLine line := by
  induction h with
  | nil => rfl
  | @gap text rest ps hne hgap h ih =>
    have hhash : '#' ∉ text := fun hmem => by simpa using ne_hash_of_isSeparator (hgap _ hmem)
    simp only [upToToken_cons, h.upToToken_eq_nil_iff, ih]
    rw [trimLine_append hhash, List.rdropWhile_eq_nil_iff.mpr hgap]
    split_ifs
    · rfl
    · rw [List.flatMap_cons, ih]
      rfl
  | comment => simp [upToToken, Lexeme.token?, Lexeme.text, trimLine, List.rdropWhile]
  | @word w rest ps hw hrest h ih =>
    have hhash : '#' ∉ w.toList := fun hmem => hw.ne_hash _ hmem rfl
    have hkept : w.toList.rdropWhile isSeparator = w.toList :=
      List.rdropWhile_eq_self_iff.mpr fun hne => by simp [hw.not_separator _ (List.getLast_mem hne)]
    simp only [upToToken_cons, h.upToToken_eq_nil_iff, ih]
    rw [trimLine_append hhash, hkept]
    split_ifs
    · simp [Lexeme.token?, Lexeme.text, List.rdropWhile]
    · rw [List.flatMap_cons, ih]
      rfl

theorem LinePieces.flatMap_tokenSpan (h : LinePieces line ps) :
    (tokenSpan ps).flatMap Lexeme.text = (lineText line).toList := by
  rw [lineText_eq, String.toList_ofList]
  induction h with
  | nil => rfl
  | gap hne hgap h ih =>
    rw [List.dropWhile_append_of_pos hgap]
    exact ih
  | comment => exact LinePieces.comment.flatMap_upToToken
  | @word w rest ps hw hrest h ih =>
    have hall := (LinePieces.word hw hrest h).flatMap_upToToken
    have hfirst : (w.toList ++ rest).dropWhile isSeparator = w.toList ++ rest := by
      obtain ⟨c, run, hchars⟩ := List.exists_cons_of_ne_nil hw.toList_ne_nil
      have hc := hw.not_separator c (by simp [hchars])
      rw [hchars, List.cons_append, List.dropWhile_cons_of_neg (by simp [hc])]
    rw [hfirst]
    exact hall

theorem LinePieces.isNewline_eq_false (h : LinePieces line ps) : ∀ l ∈ ps, l.isNewline = false := by
  induction h with
  | nil => simp
  | gap hne hgap h ih => exact List.forall_mem_cons.mpr ⟨rfl, ih⟩
  | comment => simp [Lexeme.isNewline]
  | word hw hrest h ih => exact List.forall_mem_cons.mpr ⟨rfl, ih⟩

/-- The pieces of a line make the line. -/
theorem LinePieces.ofPieces?_eq (h : LinePieces line ps) (n : Nat) :
    SourceLine.ofPieces? n ps = SourceLine.ofChars? n line := by
  rw [SourceLine.ofPieces?, SourceLine.ofChars?, h.filterMap_token?]
  cases lineTokens line with
  | nil => rfl
  | cons first rest => simp [h.flatMap_tokenSpan]

/-- Between line feeds stand the pieces of lines. -/
theorem Lexes.forall₂_lines {cs : List Char} {ls : List Lexeme} (h : Lexes cs ls) :
    List.Forall₂ (fun ps line => LinePieces line ps) (ls.splitOnP Lexeme.isNewline)
      (splitLines cs) := by
  induction cs using lines_induction generalizing ls with
  | last line hline =>
    have hps := h.linePieces hline
    rw [splitLines_last line hline, List.splitOnP_eq_singleton hps.isNewline_eq_false]
    exact .cons hps .nil
  | next line rest hline ih =>
    obtain ⟨ps, ls', rfl, hfirst, hrest⟩ := h.exists_split hline
    have hps := hfirst.linePieces hline
    rw [splitLines_line line rest hline,
      List.splitOnP_append_cons_of_forall_mem hps.isNewline_eq_false _ rfl]
    exact .cons hps (ih hrest)

/-- The lines of a divided text are the lines of the script. -/
theorem Lexes.lexedLines_eq {source : String} {ls : List Lexeme} (h : Lexes source.toList ls) :
    lexedLines ls = sourceLines source := by
  have hlines := h.forall₂_lines
  rw [lexedLines, sourceLines]
  generalize ls.splitOnP Lexeme.isNewline = parts at hlines ⊢
  generalize splitLines source.toList = lines at hlines ⊢
  generalize 1 = n
  induction hlines generalizing n with
  | nil => rfl
  | cons hline _ ih =>
    rw [List.zipIdx_cons, List.zipIdx_cons, List.filterMap_cons, List.filterMap_cons, ih,
      hline.ofPieces?_eq]

end Pieces

end PulseScript
