import Mathlib
import PulseScript.Script.Context

/-!
# Reading back written JSON

The scanner finds the tokens of what the writer has written: every string is found as
itself, whatever it holds, and every number as the word that its characters spell. Whether
that word is the same number again is known of integers; of other numbers it is the
property `Binary64.ReadsBack`, because the reader rounds twice.
-/
namespace PulseScript

def Binary64.reread? (x : Binary64) : Option Binary64 :=
  (Json.ofText? (Json.float x).render).bind Json.number64?

/-- The JSON text of the number is read as that number. -/
def Binary64.ReadsBack (x : Binary64) : Prop := x.reread? = some x

instance (x : Binary64) : Decidable x.ReadsBack := inferInstanceAs (Decidable (_ = _))

namespace Json

/-- A character that goes on with a word. -/
def IsBare (c : Char) : Prop := mark? c = none ∧ isSpace c = false ∧ c ≠ '"'

theorem isBare_of_isDigit {c : Char} (h : c.isDigit = true) : IsBare c := by
  refine ⟨?_, ?_, ?_⟩
  · unfold mark?
    split <;> first | rfl | exact absurd h (by decide)
  · by_contra hs
    simp only [isSpace, Bool.not_eq_false, Bool.or_eq_true, beq_iff_eq] at hs
    rcases hs with ((hs | hs) | hs) | hs <;> subst hs <;> exact absurd h (by decide)
  · intro hq
    subst hq
    exact absurd h (by decide)

theorem isBare_of_mem {c : Char} (h : c ∈ ['-', '+', '.', 'e', 'n', 'u', 'l']) : IsBare c := by
  simp only [List.mem_cons, List.not_mem_nil, or_false] at h
  rcases h with h | h | h | h | h | h | h <;> subst h <;> exact ⟨by decide, by decide, by decide⟩

namespace Scan

theorem stepBetween_bare (found : List Token) {c : Char} (h : IsBare c) :
    stepBetween found c = ⟨found, .word [c]⟩ := by
  simp [stepBetween, h.1, h.2.1, h.2.2]

theorem stepBetween_mark (found : List Token) {c : Char} {t : Token} (h : mark? c = some t) :
    stepBetween found c = ⟨t :: found, .between⟩ := by
  simp [stepBetween, h]

theorem step_word_bare (found : List Token) (seen : List Char) {c : Char} (h : IsBare c) :
    step ⟨found, .word seen⟩ c = some ⟨found, .word (c :: seen)⟩ := by
  simp [step, h.1, h.2.1, h.2.2]

theorem foldlM_word (found : List Token) (cs : List Char) (h : ∀ c ∈ cs, IsBare c)
    (seen : List Char) :
    cs.foldlM step ⟨found, .word seen⟩ = some ⟨found, .word (cs.reverse ++ seen)⟩ := by
  induction cs generalizing seen with
  | nil => rfl
  | cons c cs ih =>
    have hc := h c (by simp)
    have hi := ih (fun d hd => h d (List.mem_cons_of_mem c hd)) (c :: seen)
    rw [List.foldlM_cons, step_word_bare found seen hc]
    simpa using hi

theorem foldlM_bare (found : List Token) {cs : List Char} (hne : cs ≠ [])
    (h : ∀ c ∈ cs, IsBare c) :
    cs.foldlM step ⟨found, .between⟩ = some ⟨found, .word cs.reverse⟩ := by
  cases cs with
  | nil => exact absurd rfl hne
  | cons c cs =>
    have hs : step ⟨found, .between⟩ c = some ⟨found, .word [c]⟩ := by
      rw [step, stepBetween_bare found (h c (by simp))]
    have hw := foldlM_word found cs (fun d hd => h d (List.mem_cons_of_mem c hd)) [c]
    rw [List.foldlM_cons, hs]
    simpa using hw

/-- A word that a mark ends. -/
theorem foldlM_word_mark (found : List Token) {cs : List Char} (hne : cs ≠ [])
    (h : ∀ c ∈ cs, IsBare c) {m : Char} {t : Token} (hm : mark? m = some t) (rest : List Char) :
    (cs ++ m :: rest).foldlM step ⟨found, .between⟩ =
      (word? cs).bind fun v => rest.foldlM step ⟨t :: .scalar v :: found, .between⟩ := by
  have hs : step ⟨found, .word cs.reverse⟩ m =
      (word? cs).map fun v => ⟨t :: .scalar v :: found, .between⟩ := by
    simp [step, hm, stepBetween_mark _ hm]
  rw [List.foldlM_append, foldlM_bare found hne h]
  simp only [Option.bind_eq_bind, Option.bind_some, List.foldlM_cons, hs, Option.bind_map,
    Function.comp_def]

/-- A mark between tokens. -/
theorem foldlM_mark (found : List Token) {m : Char} {t : Token} (hm : mark? m = some t)
    (rest : List Char) :
    (m :: rest).foldlM step ⟨found, .between⟩ = rest.foldlM step ⟨t :: found, .between⟩ := by
  have hs : step ⟨found, .between⟩ m = some ⟨t :: found, .between⟩ := by
    rw [step, stepBetween_mark found hm]
  rw [List.foldlM_cons, hs]
  rfl

end Scan

theorem hexDigit?_hexDigit : ∀ n, n < 16 → hexDigit? (hexDigit n) = some n := by decide

/-- The four digits of a written control character name its code unit. -/
theorem hexUnit?_hexDigit {n : Nat} (h : n < 32) :
    hexUnit? '0' '0' (hexDigit (n / 16)) (hexDigit (n % 16)) = some n := by
  have hz : hexDigit? '0' = some 0 := by decide
  have hn : (0 * 16 + 0) * 16 + n / 16 = n / 16 := by omega
  simp only [hexUnit?, hz, hexDigit?_hexDigit _ (show n / 16 < 16 by omega),
    hexDigit?_hexDigit _ (show n % 16 < 16 by omega), Option.bind_eq_bind, Option.bind_some,
    Option.pure_def, Option.some.injEq, hn]
  omega

namespace Scan

/-- One written character adds itself to the draft. -/
theorem foldlM_escapeChar (found : List Token) (text : List Char) (c : Char) :
    (escapeChar c).foldlM step ⟨found, .string ⟨text, none, true⟩⟩ =
      some ⟨found, .string ⟨c :: text, none, true⟩⟩ := by
  unfold escapeChar
  split
  case h_8 hq hb h8 hf hn hr ht =>
    split
    · rename_i hc
      have hlt : c.toNat < 32 := hc
      have hu := hexUnit?_hexDigit hlt
      have hadd : (Draft.addUnit ⟨text, none, true⟩ c.toNat) = ⟨c :: text, none, true⟩ := by
        have h1 : ¬ (0xD800 ≤ c.toNat ∧ c.toNat ≤ 0xDBFF) := by omega
        have h2 : ¬ (0xDC00 ≤ c.toNat ∧ c.toNat ≤ 0xDFFF) := by omega
        simp [Draft.addUnit, h1, h2, Draft.add]
      simp only [List.foldlM_cons, List.foldlM_nil, step]
      simp [hu, hadd]
    · rename_i hc
      have hs : step ⟨found, .string ⟨text, none, true⟩⟩ c =
          some ⟨found, .string ⟨c :: text, none, true⟩⟩ := by
        simp [step, hc, Draft.add, show c ≠ '"' from hq, show c ≠ '\\' from hb]
      simp [hs]
  all_goals rfl

theorem foldlM_escaped (found : List Token) (cs : List Char) (text : List Char) :
    (cs.flatMap escapeChar).foldlM step ⟨found, .string ⟨text, none, true⟩⟩ =
      some ⟨found, .string ⟨cs.reverse ++ text, none, true⟩⟩ := by
  induction cs generalizing text with
  | nil => rfl
  | cons c cs ih =>
    rw [List.flatMap_cons, List.foldlM_append, foldlM_escapeChar]
    simpa using ih (c :: text)

/-- A written string is found as itself. -/
theorem foldlM_stringChars (found : List Token) (s : String) (rest : List Char) :
    (stringChars s ++ rest).foldlM step ⟨found, .between⟩ =
      rest.foldlM step ⟨.string (some s) :: found, .between⟩ := by
  have hopen : step ⟨found, .between⟩ '"' = some ⟨found, .string .start⟩ := rfl
  have hbody := foldlM_escaped found s.toList []
  have hclose : step ⟨found, .string ⟨s.toList.reverse ++ [], none, true⟩⟩ '"' =
      some ⟨.string (some s) :: found, .between⟩ := by
    simp [step, Draft.finish]
  rw [stringChars, List.cons_append, List.cons_append, List.foldlM_cons, hopen]
  simp only [Option.bind_eq_bind, Option.bind_some, List.append_assoc, List.foldlM_append]
  rw [show Draft.start = ⟨[], none, true⟩ from rfl, hbody]
  simp only [Option.bind_some, List.foldlM_cons, hclose, List.foldlM_nil]
  rfl

end Scan
end Json

theorem isDigit_of_mem_decimalDigits {n : Nat} {c : Char} (h : c ∈ decimalDigits n) :
    c.isDigit = true :=
  Nat.isDigit_of_mem_toDigits (by decide) (by decide) h

theorem decimalDigits_ne_nil (n : Nat) : decimalDigits n ≠ [] := Nat.toDigits_ne_nil

/-- Only zero is written with a leading zero. -/
theorem eq_zero_of_head_decimalDigits {n : Nat} (h : (decimalDigits n).head? = some '0') :
    n = 0 := by
  induction n using Nat.strongRecOn with
  | ind n ih =>
    rcases Nat.lt_or_ge n 10 with hn | hn
    · rw [decimalDigits, Nat.toDigits_of_lt_base hn] at h
      interval_cases n <;> first | rfl | exact absurd h (by decide)
    · have hstep : decimalDigits n = decimalDigits (n / 10) ++ [Nat.digitChar (n % 10)] :=
        Nat.toDigits_of_base_le (by decide) hn
      rw [hstep, List.head?_append_of_ne_nil _ (decimalDigits_ne_nil _)] at h
      have := ih (n / 10) (by omega) h
      omega

/-- A written natural number is read as it stands. -/
theorem natOfDigits?_decimalDigits (n : Nat) : natOfDigits? (decimalDigits n) = some n := by
  have hall : (decimalDigits n).all Char.isDigit = true := by
    rw [List.all_eq_true]
    exact fun c hc => isDigit_of_mem_decimalDigits hc
  rw [natOfDigits?, if_pos ⟨decimalDigits_ne_nil n, hall⟩]
  exact congrArg some Nat.ofDigitChars_ten_toDigits

namespace Json

/-- What starts with a digit is no name, so it is a number if it is a word at all. -/
theorem word?_of_isDigit {c : Char} {cs : List Char} (h : c.isDigit = true) :
    word? (c :: cs) = number? (c :: cs) := by
  unfold word?
  split
  case h_4 => rfl
  all_goals
    rename_i hs
    have hl := congrArg String.toList hs
    rw [String.toList_ofList] at hl
    exact absurd h (by rw [List.head_eq_of_cons_eq hl]; decide)

theorem numeral_ofChars?_digits {cs : List Char} (h : ∀ c ∈ cs, c.isDigit = true) :
    Numeral.ofChars? cs = some ⟨cs, none, none⟩ := by
  have ht : cs.takeWhile Char.isDigit = cs := List.takeWhile_eq_self_iff.mpr h
  have hd : cs.dropWhile Char.isDigit = [] := List.dropWhile_eq_nil_iff.mpr h
  simp [Numeral.ofChars?, ht, hd, Numeral.exponentPart?]

/-- A written natural number of at most 64 bits is read as that integer. -/
theorem word?_decimalDigits {n : Nat} (hn : n < UInt64.size) :
    word? (decimalDigits n) = some (.int n) := by
  have hdig : ∀ c ∈ decimalDigits n, c.isDigit = true := fun c hc => isDigit_of_mem_decimalDigits hc
  have hnum := numeral_ofChars?_digits hdig
  have hval : (Numeral.mk (decimalDigits n) none none).digits = n := by
    simp [Numeral.digits, decimalDigits, Nat.ofDigitChars_ten_toDigits]
  have hzero : (decimalDigits n).head? = some '0' → decimalDigits n = ['0'] := by
    intro h
    rw [eq_zero_of_head_decimalDigits h]
    rfl
  obtain ⟨c, cs, hcs⟩ := List.exists_cons_of_ne_nil (decimalDigits_ne_nil n)
  have hc : c.isDigit = true := hdig c (by simp [hcs])
  have hminus : c ≠ '-' := by intro he; subst he; exact absurd hc (by decide)
  have hword : word? (decimalDigits n) = number? (decimalDigits n) := by
    rw [hcs]
    exact word?_of_isDigit hc
  have hhead : (decimalDigits n).head? ≠ some '-' := by simpa [hcs] using hminus
  have hform : ¬ (decimalDigits n = [] ∨ (decimalDigits n ≠ ['0'] ∧
      (decimalDigits n).head? = some '0') ∨ (none : Option (List Char)) = some []) := by
    rintro (h | ⟨h, h'⟩ | h)
    · exact decimalDigits_ne_nil n h
    · exact h (hzero h')
    · exact absurd h (by simp)
  have hint : ofNumeral false ⟨decimalDigits n, none, none⟩ = .int n := by
    rw [ofNumeral]
    simp only [Numeral.isWhole, hval, hn, Bool.false_eq_true, if_false, decide_true]
    rfl
  rw [hword, number?]
  simp only [hhead, decide_false, if_false, hnum, if_neg hform, hint]

end Json

namespace Decimal

/-- The characters of a number in JSON text. -/
def IsNumeralChar (c : Char) : Prop := c.isDigit = true ∨ c ∈ ['-', '+', '.', 'e', 'n', 'u', 'l']

theorem isNumeralChar_positional (d : Decimal) : ∀ c ∈ d.positional, IsNumeralChar c := by
  intro c hc
  have hzero : ∀ k, c ∈ List.replicate k '0' → IsNumeralChar c := by
    intro k h
    rw [List.eq_of_mem_replicate h]
    exact .inl (by decide)
  have hpad : ∀ k, c ∈ List.replicate k '0' ++ decimalDigits d.digits → IsNumeralChar c := by
    intro k h
    rcases List.mem_append.mp h with h | h
    · exact hzero k h
    · exact .inl (isDigit_of_mem_decimalDigits h)
  unfold positional at hc
  split at hc
  · rcases List.mem_append.mp hc with h | h
    · exact .inl (isDigit_of_mem_decimalDigits h)
    · exact hzero _ h
  · rcases List.mem_append.mp hc with h | h
    · exact hpad _ (List.mem_of_mem_take h)
    · rcases List.mem_cons.mp h with h | h
      · subst h; exact .inr (by simp)
      · exact hpad _ (List.mem_of_mem_drop h)

theorem isNumeralChar_scientific (d : Decimal) : ∀ c ∈ d.scientific, IsNumeralChar c := by
  intro c hc
  have hdig : ∀ n, c ∈ decimalDigits n → IsNumeralChar c :=
    fun n h => .inl (isDigit_of_mem_decimalDigits h)
  unfold scientific at hc
  simp only [List.mem_append, List.mem_cons] at hc
  rcases hc with (h | h) | h | h | h
  · exact hdig _ (List.mem_of_mem_take h)
  · split at h
    · exact absurd h (by simp)
    · rename_i rest hrest
      rcases List.mem_cons.mp h with h | h
      · subst h; exact .inr (by simp)
      · exact hdig _ (List.mem_of_mem_drop h)
  · subst h; exact .inr (by simp)
  · split at h <;> subst h <;> exact .inr (by simp)
  · exact hdig _ h

theorem positional_ne_nil (d : Decimal) : d.positional ≠ [] := by
  unfold positional
  split
  · simp [decimalDigits_ne_nil]
  · simp

theorem scientific_ne_nil (d : Decimal) : d.scientific ≠ [] := by simp [scientific]

end Decimal

namespace Binary64

theorem isNumeralChar_jsonChars (x : Binary64) : ∀ c ∈ x.jsonChars, Decimal.IsNumeralChar c := by
  intro c hc
  unfold jsonChars at hc
  split at hc
  · rename_i s m e hcan
    rcases List.mem_append.mp hc with h | h
    · unfold signChars at h
      split at h
      · rw [List.mem_singleton.mp h]; exact .inr (by simp)
      · exact absurd h (by simp)
    · split at h
      · exact Decimal.isNumeralChar_scientific _ c h
      · split at h
        · rcases List.mem_append.mp h with h | h
          · exact Decimal.isNumeralChar_positional _ c h
          · simp only [List.mem_cons, List.not_mem_nil, or_false] at h
            rcases h with h | h <;> subst h
            · exact .inr (by simp)
            · exact .inl (by decide)
        · exact Decimal.isNumeralChar_positional _ c h
  · exact .inr (by revert hc; simp; tauto)

theorem jsonChars_ne_nil (x : Binary64) : x.jsonChars ≠ [] := by
  unfold jsonChars
  split
  · intro h
    have hb := (List.append_eq_nil_iff.mp h).2
    split at hb
    · exact Decimal.scientific_ne_nil _ hb
    · split at hb
      · exact absurd hb (by simp)
      · exact Decimal.positional_ne_nil _ hb
  · simp

theorem isBare_jsonChars (x : Binary64) : ∀ c ∈ x.jsonChars, Json.IsBare c := by
  intro c hc
  rcases isNumeralChar_jsonChars x c hc with h | h
  · exact Json.isBare_of_isDigit h
  · exact Json.isBare_of_mem h

/-- The text of a number is one word, and is read as what that word spells. -/
theorem ofText?_render (x : Binary64) :
    Json.ofText? (Json.float x).render = Json.word? x.jsonChars := by
  have hs := Json.Scan.foldlM_bare [] (jsonChars_ne_nil x) (isBare_jsonChars x)
  have hm : ∀ v : Json, Json.ofTokens? [.scalar v] = some v := fun v => rfl
  simp only [Json.ofText?, Json.render, String.toList_ofList, Json.chars, Json.tokens?, hs,
    Option.bind_some, Json.Scan.finish, List.reverse_reverse, Option.bind_map,
    Function.comp_def, List.reverse_cons, List.reverse_nil, List.nil_append, hm]
  simp

theorem reread?_eq (x : Binary64) : x.reread? = (Json.word? x.jsonChars).bind Json.number64? := by
  rw [reread?, ofText?_render]

end Binary64
end PulseScript
