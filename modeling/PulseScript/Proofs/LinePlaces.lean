import Mathlib
import PulseScript.Proofs.TextLayout

/-!
# Where the lines of a text stand

A line stands between two line feeds or an end of the text, and its number counts the line feeds
before it. The lines that a script is read from are those that hold something else than separators,
each with the number of its place.
-/
namespace PulseScript

/-- What holds of a line, and of a line before a text of which it holds, holds of every text. -/
theorem lines_induction {P : List Char → Prop} (last : ∀ line, '\n' ∉ line → P line)
    (next : ∀ line rest, '\n' ∉ line → P rest → P (line ++ '\n' :: rest)) (cs : List Char) :
    P cs := by
  induction hn : cs.length using Nat.strongRecOn generalizing cs with
  | ind n ih =>
    by_cases hmem : '\n' ∈ cs
    · obtain ⟨line, rest, rfl, hline⟩ := List.eq_append_cons_of_mem hmem
      rw [List.length_append, List.length_cons] at hn
      exact next line rest hline (ih rest.length (by omega) rest rfl)
    · exact last cs hmem

/-- The line stands in the text between line feeds or its ends, and has the number of the line feeds
before it and one. -/
def LineAt (source : String) (number : Nat) (line : List Char) : Prop :=
  ∃ before after, source.toList = before ++ line ++ after ∧ '\n' ∉ line ∧
    (before = [] ∨ before.getLast? = some '\n') ∧ (after = [] ∨ after.head? = some '\n') ∧
    number = before.count '\n' + 1

/-- Behind a line feed the lines go on as those of the rest, and before it there is one line more
than there are line feeds. -/
theorem splitLines_append (cs rest : List Char) :
    ∃ lines, splitLines (cs ++ '\n' :: rest) = lines ++ splitLines rest ∧
      lines.length = cs.count '\n' + 1 := by
  induction cs using lines_induction with
  | last line h =>
    refine ⟨[line], splitLines_line line rest h, ?_⟩
    rw [List.count_eq_zero.mpr h]
    rfl
  | next line cs h ih =>
    obtain ⟨lines, hlines, hlength⟩ := ih
    refine ⟨line :: lines, ?_, ?_⟩
    · rw [List.append_assoc, List.cons_append, splitLines_line _ _ h, hlines, List.cons_append]
    · rw [List.length_cons, hlength, List.count_append, List.count_eq_zero.mpr h,
        List.count_cons_self, Nat.zero_add]

/-- The first line reaches to the first line feed, or to the end. -/
theorem head?_splitLines {line after : List Char} (h : '\n' ∉ line)
    (hafter : after = [] ∨ after.head? = some '\n') :
    (splitLines (line ++ after)).head? = some line := by
  rcases hafter with rfl | hafter
  · rw [List.append_nil, splitLines_last line h, List.head?_singleton]
  · obtain ⟨rest, rfl⟩ := List.head?_eq_some_iff.mp hafter
    rw [splitLines_line line rest h, List.head?_cons]

/-- Lines where they stand are the lines that a text is split into. -/
theorem lineAt_iff (source : String) (number : Nat) (line : List Char) :
    LineAt source number line ↔
      ∃ k, (splitLines source.toList)[k]? = some line ∧ number = k + 1 := by
  constructor
  · rintro ⟨before, after, hsource, hline, hbefore, hafter, rfl⟩
    refine ⟨before.count '\n', ?_, rfl⟩
    have hhead := head?_splitLines hline hafter
    rw [hsource, List.append_assoc]
    rcases hbefore with rfl | hbefore
    · rw [List.nil_append, List.count_nil, ← List.head?_eq_getElem?, hhead]
    · obtain ⟨cs, rfl⟩ := List.getLast?_eq_some_iff.mp hbefore
      obtain ⟨lines, hlines, hlength⟩ := splitLines_append cs (line ++ after)
      rw [List.append_assoc, List.singleton_append, hlines, List.count_append,
        List.count_singleton_self, List.getElem?_append_right hlength.le, hlength, Nat.sub_self,
        ← List.head?_eq_getElem?, hhead]
  · rintro ⟨k, hk, rfl⟩
    unfold LineAt
    generalize source.toList = cs at hk ⊢
    induction cs using lines_induction generalizing k with
    | last cs h =>
      rw [splitLines_last cs h] at hk
      obtain ⟨rfl, rfl⟩ : k = 0 ∧ cs = line := by simpa [List.getElem?_singleton] using hk
      exact ⟨[], [], by simp, h, .inl rfl, .inl rfl, rfl⟩
    | next first rest h ih =>
      rw [splitLines_line first rest h] at hk
      cases k with
      | zero =>
        obtain rfl : first = line := Option.some.inj hk
        exact ⟨[], '\n' :: rest, by simp, h, .inl rfl, .inr rfl, rfl⟩
      | succ k =>
        obtain ⟨before, after, hrest, hline, hbefore, hafter, hnumber⟩ := ih k hk
        refine ⟨first ++ '\n' :: before, after, by simp [hrest], hline, .inr ?_, hafter, ?_⟩
        · rcases hbefore with rfl | hbefore
          · simp
          · rw [List.getLast?_append, List.getLast?_cons, hbefore]
            rfl
        · rw [List.count_append, List.count_eq_zero.mpr h, List.count_cons_self, ← hnumber]
          omega

/-- The lines of a script are its lines with a token. -/
theorem mem_sourceLines_iff (source : String) (l : SourceLine) :
    l ∈ sourceLines source ↔
      ∃ line, LineAt source l.number line ∧ SourceLine.ofChars? l.number line = some l := by
  have hpair (line : List Char) (n : Nat) :
      (line, n) ∈ (splitLines source.toList).zipIdx 1 ↔ LineAt source n line := by
    rw [lineAt_iff, List.mem_zipIdx_iff_le_and_getElem?_sub]
    constructor
    · rintro ⟨hn, hk⟩
      exact ⟨n - 1, hk, by omega⟩
    · rintro ⟨k, hk, rfl⟩
      exact ⟨by omega, hk⟩
  rw [sourceLines, List.mem_filterMap]
  constructor
  · rintro ⟨⟨line, n⟩, hmem, hl⟩
    obtain ⟨hnumber, -⟩ := (SourceLine.ofChars?_eq_some_iff n line l).mp hl
    rw [hnumber]
    exact ⟨line, (hpair line n).mp hmem, hl⟩
  · rintro ⟨line, hline, hl⟩
    exact ⟨(line, l.number), (hpair line l.number).mpr hline, hl⟩

theorem lineTokens_eq_nil_iff (line : List Char) :
    lineTokens line = [] ↔ ∀ c ∈ line, isSeparator c = true := by
  have hcomment : lineComment line = [] ↔ line.dropWhile (· != '#') = [] := by
    unfold lineComment
    cases line.dropWhile (· != '#') <;> simp
  rw [lineTokens, List.append_eq_nil_iff, hcomment, List.map_eq_nil_iff, lineWords,
    List.map_eq_nil_iff, splitRuns_eq_nil_iff]
  constructor
  · rintro ⟨hwords, hdrop⟩ c hc
    rw [← List.takeWhile_append_dropWhile (p := (· != '#')) (l := line), hdrop,
      List.append_nil] at hc
    exact hwords c hc
  · intro h
    refine ⟨fun c hc => h c (List.takeWhile_subset _ hc), List.dropWhile_eq_nil_iff.mpr ?_⟩
    exact fun c hc => ne_hash_of_isSeparator (h c hc)

/-- A line has a token if not all of it is separators. -/
theorem SourceLine.exists_ofChars?_iff (n : Nat) (line : List Char) :
    (∃ l, SourceLine.ofChars? n line = some l) ↔ ∃ c ∈ line, isSeparator c = false := by
  rw [← Option.isSome_iff_exists, ← Option.ne_none_iff_isSome, Ne, ofChars?_eq_none_iff,
    lineTokens_eq_nil_iff]
  simp

end PulseScript
