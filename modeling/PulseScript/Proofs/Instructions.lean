import Mathlib
import PulseScript.Proofs.Stretches

/-!
# The grammar of instructions

A line is a sequence of words up to its first hash or its end. It is an instruction if its first
word is a mnemonic and the other words fit it: one label, at least one, or a label and a duration.
What is read then holds these words as they stand, and the exact number of nanoseconds. Any other
line with a word is refused for its first word, or for the others.
-/
namespace PulseScript

/-- The words before the first hash or the end of the line, with separators between them. -/
inductive Worded : List Char → List String → Prop where
  | done {gap rest : List Char} (hgap : ∀ c ∈ gap, isSeparator c = true)
    (hrest : ∀ c ∈ rest.head?, c = '#') : Worded (gap ++ rest) []
  | word {gap rest : List Char} {w : String} {ws : List String}
    (hgap : ∀ c ∈ gap, isSeparator c = true) (hw : IsWord w)
    (hrest : ∀ c ∈ rest.head?, isSeparator c = true ∨ c = '#') (h : Worded rest ws) :
    Worded (gap ++ (w.toList ++ rest)) (w :: ws)

section Words

variable {line : List Char} {ws : List String}

theorem Worded.gap {gap : List Char} (hgap : ∀ c ∈ gap, isSeparator c = true)
    (h : Worded line ws) : Worded (gap ++ line) ws := by
  cases h with
  | done hgap' hrest =>
    rw [← List.append_assoc]
    exact .done (List.forall_mem_append.mpr ⟨hgap, hgap'⟩) hrest
  | word hgap' hw hrest h =>
    rw [← List.append_assoc]
    exact .word (List.forall_mem_append.mpr ⟨hgap, hgap'⟩) hw hrest h

theorem LinePieces.exists_words {ps : List Lexeme} (h : LinePieces line ps) :
    ∃ ws, Worded line ws := by
  induction h with
  | nil => exact ⟨[], @Worded.done [] [] (by simp) (by simp)⟩
  | gap hne hgap h ih =>
    obtain ⟨ws, hws⟩ := ih
    exact ⟨ws, hws.gap hgap⟩
  | comment => exact ⟨[], @Worded.done [] _ (by simp) (by simp)⟩
  | @word w rest ps hw hrest h ih =>
    obtain ⟨ws, hws⟩ := ih
    exact ⟨w :: ws, @Worded.word [] rest w ws (by simp) hw hrest hws⟩

/-- Every line has words, as its pieces show. -/
theorem Worded.exists_words (hline : '\n' ∉ line) : ∃ ws, Worded line ws := by
  obtain ⟨ps, hps⟩ := Lexes.exists_lexes line
  exact (hps.linePieces hline).exists_words

/-- A line that starts with a word has one. -/
theorem Worded.exists_cons (hline : '\n' ∉ line)
    (hfirst : ∃ c, (line.dropWhile isSeparator).head? = some c ∧ c ≠ '#') :
    ∃ w ws, Worded line (w :: ws) := by
  obtain ⟨ws, hws⟩ := exists_words hline
  cases hws with
  | @done gap rest hgap hrest =>
    obtain ⟨c, hc, hhash⟩ := hfirst
    rw [List.dropWhile_append_of_pos hgap] at hc
    cases rest with
    | nil => cases hc
    | cons d rest =>
      obtain rfl := hrest d rfl
      exact absurd (Option.some.inj hc).symm hhash
  | word hgap hw hrest h => exact ⟨_, _, .word hgap hw hrest h⟩

/-- The words of a line are those that it is read as. -/
theorem worded_iff (hline : '\n' ∉ line) : Worded line ws ↔ lineWords line = ws := by
  have hwords {ws : List String} (h : Worded line ws) : lineWords line = ws := by
    rw [← wordsOf_lineTokens]
    clear hline
    induction h with
    | @done gap rest hgap hrest =>
      rw [lineTokens_gap hgap, wordsOf_lineTokens]
      cases rest with
      | nil => rfl
      | cons c rest =>
        obtain rfl := hrest c rfl
        simp [lineWords, splitRuns]
    | @word gap rest w ws hgap hw hrest h ih =>
      have hchars : ∀ c ∈ w.toList, isSeparator c = false ∧ c ≠ '#' :=
        fun c hc => ⟨hw.not_separator c hc, hw.ne_hash c hc⟩
      rw [lineTokens_gap hgap, lineTokens_word hw.toList_ne_nil hchars hrest, String.ofList_toList,
        wordsOf, List.filterMap_cons]
      exact congrArg (w :: ·) ih
  refine ⟨hwords, fun h => ?_⟩
  obtain ⟨ws', hws'⟩ := Worded.exists_words hline
  rwa [← h, hwords hws']

end Words

/-- An optional plus sign and digits that denote the number. -/
def IsDuration (word : String) (ns : UInt64) : Prop :=
  ∃ digits : List Char, (word.toList = digits ∨ word.toList = '+' :: digits) ∧ digits ≠ [] ∧
    (∀ c ∈ digits, c.isDigit = true) ∧ Nat.ofDigitChars 10 digits 0 = ns.toNat

inductive Instruction : Mnemonic → List String → Statement → Prop where
  | gate {m : Mnemonic} {q : String} (hm : m ∈ [.x, .y, .x2p, .x2m, .y2p, .y2m]) :
    Instruction m [q] (.gate m q)
  | coupled {g : String} : Instruction .cz [g] (.coupled .cz g)
  | measure {qs : List String} (hqs : qs ≠ []) : Instruction .measure qs (.measure qs)
  | barrier {agents : List String} (hagents : agents ≠ []) :
    Instruction .barrier agents (.barrier agents)
  | idle {q word : String} {ns : UInt64} (hword : IsDuration word ns) :
    Instruction .idle [q, word] (.idle q ns)

inductive Misfit : Mnemonic → List String → MalformedReason → Prop where
  | gate {m : Mnemonic} {ws : List String} (hm : m ∈ [.x, .y, .x2p, .x2m, .y2p, .y2m])
    (hws : ws.length ≠ 1) : Misfit m ws .expectedQubit
  | coupled {ws : List String} (hws : ws.length ≠ 1) : Misfit .cz ws .expectedCoupler
  | measure : Misfit .measure [] .expectedQubits
  | barrier : Misfit .barrier [] .expectedAgents
  | idle {ws : List String} (hws : ws.length ≠ 2) : Misfit .idle ws .expectedQubitDuration
  | duration {q word : String} (hword : ∀ ns, ¬ IsDuration word ns) :
    Misfit .idle [q, word] .badDuration

theorem natOfDigits?_eq_some_iff {digits : List Char} {n : Nat} : natOfDigits? digits = some n ↔
    digits ≠ [] ∧ (∀ c ∈ digits, c.isDigit = true) ∧ Nat.ofDigitChars 10 digits 0 = n := by
  unfold natOfDigits?
  rw [Option.ite_none_right_eq_some, Option.some.injEq, List.all_eq_true, and_assoc]

def wordOfDigits? (digits : List Char) : Option UInt64 :=
  (natOfDigits? digits).bind fun n => if n < UInt64.size then some (UInt64.ofNat n) else none

theorem wordOfDigits?_eq_some_iff {digits : List Char} {ns : UInt64} :
    wordOfDigits? digits = some ns ↔
      digits ≠ [] ∧ (∀ c ∈ digits, c.isDigit = true) ∧
        Nat.ofDigitChars 10 digits 0 = ns.toNat := by
  rw [← natOfDigits?_eq_some_iff, wordOfDigits?, Option.bind_eq_some_iff]
  simp only [Option.ite_none_right_eq_some, Option.some.injEq]
  constructor
  · rintro ⟨n, hdigits, hn, rfl⟩
    rwa [UInt64.toNat_ofNat_of_lt' hn]
  · exact fun hdigits => ⟨ns.toNat, hdigits, ns.toNat_lt, UInt64.ofNat_toNat⟩

theorem duration?_of_plus {word : String} {digits : List Char} (h : word.toList = '+' :: digits) :
    duration? word = wordOfDigits? digits := by
  simp only [duration?, h, wordOfDigits?]
  cases natOfDigits? digits <;> rfl

theorem duration?_of_no_plus {word : String} (h : ∀ digits, word.toList ≠ '+' :: digits) :
    duration? word = wordOfDigits? word.toList := by
  unfold duration? wordOfDigits?
  split
  · exact absurd ‹_› (h _)
  · dsimp only
    cases natOfDigits? word.toList <;> rfl

theorem duration?_eq_some_iff {word : String} {ns : UInt64} :
    duration? word = some ns ↔ IsDuration word ns := by
  by_cases hplus : ∃ digits, word.toList = '+' :: digits
  · obtain ⟨digits, hword⟩ := hplus
    rw [duration?_of_plus hword, wordOfDigits?_eq_some_iff]
    constructor
    · exact fun h => ⟨digits, .inr hword, h⟩
    · rintro ⟨digits', hword' | hword', hdigits⟩
      · have hsign := hdigits.2.1 '+' (by simp [← hword', hword])
        exact absurd hsign (by decide)
      · rw [hword] at hword'
        obtain ⟨-, rfl⟩ := List.cons.inj hword'
        exact hdigits
  · have hnone : ∀ digits, word.toList ≠ '+' :: digits := fun digits h => hplus ⟨digits, h⟩
    rw [duration?_of_no_plus hnone, wordOfDigits?_eq_some_iff]
    constructor
    · exact fun h => ⟨word.toList, .inl rfl, h⟩
    · rintro ⟨digits, hword | hword, hdigits⟩
      · rwa [hword]
      · exact absurd hword (hnone digits)

theorem Mnemonic.forall_text_ne_iff {w : String} : (∀ m : Mnemonic, m.text ≠ w) ↔
    w ∉ ["X", "Y", "X2P", "X2M", "Y2P", "Y2M", "CZ", "M", "B", "I"] := by
  constructor
  · intro h hmem
    simp only [List.mem_cons, List.not_mem_nil, or_false] at hmem
    rcases hmem with rfl | rfl | rfl | rfl | rfl | rfl | rfl | rfl | rfl | rfl
    exacts [h .x rfl, h .y rfl, h .x2p rfl, h .x2m rfl, h .y2p rfl, h .y2m rfl, h .cz rfl,
      h .measure rfl, h .barrier rfl, h .idle rfl]
  · rintro h m rfl
    exact h (by cases m <;> simp [text])

theorem Mnemonic.operands_eq_qubit_iff {m : Mnemonic} :
    m.operands = .qubit ↔ m ∈ [.x, .y, .x2p, .x2m, .y2p, .y2m] := by
  cases m <;> simp [operands]

/-- The mnemonics with a shape of operands that no other has. -/
theorem Mnemonic.eq_of_operands (n : Mnemonic) {m : Mnemonic} (h : m.operands = n.operands)
    (hn : n.operands ≠ .qubit) : m = n := by
  cases m <;> cases n <;> first | rfl | simp_all [operands]

namespace Statement

variable {m : Mnemonic} {ws : List String} {s : Statement} {reason : MalformedReason}

theorem instruction_of_ofOperands (h : ofOperands m ws = .ok s) : Instruction m ws s := by
  unfold ofOperands at h
  split at h
  · cases h
    exact .gate (Mnemonic.operands_eq_qubit_iff.mp ‹_›)
  · cases h
  · cases h
    obtain rfl := Mnemonic.eq_of_operands .cz ‹_› (by decide)
    exact .coupled
  · cases h
  · cases h
  · cases h
    obtain rfl := Mnemonic.eq_of_operands .measure ‹_› (by decide)
    exact .measure (by simp_all)
  · cases h
  · cases h
    obtain rfl := Mnemonic.eq_of_operands .barrier ‹_› (by decide)
    exact .barrier (by simp_all)
  · obtain rfl := Mnemonic.eq_of_operands .idle ‹_› (by decide)
    split at h
    · cases h
      exact .idle (duration?_eq_some_iff.mp ‹_›)
    · cases h
  · cases h

theorem ofOperands_of_instruction (h : Instruction m ws s) : ofOperands m ws = .ok s := by
  cases h with
  | gate hm =>
    unfold ofOperands
    rw [Mnemonic.operands_eq_qubit_iff.mpr hm]
  | coupled => rfl
  | measure hqs =>
    cases ws with
    | nil => exact absurd rfl hqs
    | cons q qs => rfl
  | barrier hagents =>
    cases ws with
    | nil => exact absurd rfl hagents
    | cons a agents => rfl
  | idle hword => simp [ofOperands, Mnemonic.operands, duration?_eq_some_iff.mpr hword]

theorem misfit_of_ofOperands (h : ofOperands m ws = .error reason) : Misfit m ws reason := by
  unfold ofOperands at h
  split at h
  · cases h
  · rename_i hone
    cases h
    refine .gate (Mnemonic.operands_eq_qubit_iff.mp ‹_›) ?_
    simpa [List.length_eq_one_iff] using hone
  · cases h
  · rename_i hone
    cases h
    obtain rfl := Mnemonic.eq_of_operands .cz ‹_› (by decide)
    exact .coupled (by simpa [List.length_eq_one_iff] using hone)
  · cases h
    obtain rfl := Mnemonic.eq_of_operands .measure ‹_› (by decide)
    exact .measure
  · cases h
  · cases h
    obtain rfl := Mnemonic.eq_of_operands .barrier ‹_› (by decide)
    exact .barrier
  · cases h
  · obtain rfl := Mnemonic.eq_of_operands .idle ‹_› (by decide)
    split at h
    · cases h
    · rename_i hnone
      cases h
      refine .duration fun ns hns => ?_
      rw [duration?_eq_some_iff.mpr hns] at hnone
      cases hnone
  · rename_i htwo
    cases h
    obtain rfl := Mnemonic.eq_of_operands .idle ‹_› (by decide)
    exact .idle (by simpa [List.length_eq_two] using htwo)

theorem ofOperands_eq_ok_iff : ofOperands m ws = .ok s ↔ Instruction m ws s :=
  ⟨instruction_of_ofOperands, ofOperands_of_instruction⟩

theorem ofOperands_of_misfit (h : Misfit m ws reason) : ofOperands m ws = .error reason := by
  cases h with
  | gate hm hws =>
    unfold ofOperands
    rw [Mnemonic.operands_eq_qubit_iff.mpr hm]
    match ws, hws with
    | [], _ => rfl
    | [_], hws => exact absurd rfl hws
    | _ :: _ :: _, _ => rfl
  | coupled hws =>
    match ws, hws with
    | [], _ => rfl
    | [_], hws => exact absurd rfl hws
    | _ :: _ :: _, _ => rfl
  | measure => rfl
  | barrier => rfl
  | idle hws =>
    match ws, hws with
    | [], _ => rfl
    | [_], _ => rfl
    | [_, _], hws => exact absurd rfl hws
    | _ :: _ :: _ :: _, _ => rfl
  | @duration q word hword =>
    have hnone : duration? word = none :=
      Option.eq_none_iff_forall_ne_some.mpr fun ns => mt duration?_eq_some_iff.mp (hword ns)
    simp [ofOperands, Mnemonic.operands, hnone]

theorem ofOperands_eq_error_iff : ofOperands m ws = .error reason ↔ Misfit m ws reason :=
  ⟨misfit_of_ofOperands, ofOperands_of_misfit⟩

end Statement

namespace SourceLine

variable {l : SourceLine} {w : String} {s : Statement} {e : ScriptError}

theorem instruction_eq_ok_iff : l.instruction w = .ok s ↔
    ∃ m : Mnemonic, m.text = w ∧ Instruction m (wordsOf l.rest) s := by
  simp only [← Statement.ofOperands_eq_ok_iff, ← Mnemonic.ofText?_eq_some_iff]
  unfold instruction
  cases Mnemonic.ofText? w with
  | none => simp
  | some m => cases hargs : Statement.ofOperands m (wordsOf l.rest) <;> simp [hargs]

end SourceLine

namespace Program

/-- A script of one line outside of blocks is its statement. -/
theorem ofText_line {text : String} (hline : '\n' ∉ text.toList) {l : SourceLine}
    (hl : SourceLine.ofChars? 1 text.toList = some l) (hfirst : l.first ≠ .comment contextStart)
    (filter : Option LineFilter) : ofText filter text =
      (l.statement filter).map fun s => ⟨[⟨1, s⟩]⟩ := by
  obtain ⟨hnumber, -⟩ := (SourceLine.ofChars?_eq_some_iff 1 _ l).mp hl
  have hlines : sourceLines text = [l] := by
    rw [sourceLines, splitLines_last _ hline]
    simp [hl]
  rw [ofText, hlines, ofLines, List.foldlM_cons, ReaderState.start, ReaderState.step]
  simp only [hfirst, if_false, hnumber]
  cases l.statement filter <;> rfl

/-- A line without a line feed that starts with a word is an instruction, alone in its script,
exactly if its first word is a mnemonic and its other words fit it; the statement holds these words
and no others. Otherwise the script is refused, as an unknown mnemonic if the first word is none,
and as malformed for what is wrong with the other words if it is. -/
theorem ofText_instruction (text : String) (hline : '\n' ∉ text.toList)
    (hfirst : ∃ c, (text.toList.dropWhile isSeparator).head? = some c ∧ c ≠ '#') :
    ∃ w ws, (∀ words, Worded text.toList words ↔ words = w :: ws) ∧
      (∀ p, ofText none text = .ok p ↔
        ∃ m s, m.text = w ∧ Instruction m ws s ∧ p = ⟨[⟨1, s⟩]⟩) ∧
      (∀ e, ofText none text = .error e ↔
        (w ∉ ["X", "Y", "X2P", "X2M", "Y2P", "Y2M", "CZ", "M", "B", "I"] ∧
          e = .unknownMnemonic 1 w) ∨
        ∃ m reason, m.text = w ∧ Misfit m ws reason ∧
          e = .malformed 1 (lineText text.toList) reason) := by
  obtain ⟨w, ws, hwords⟩ := Worded.exists_cons hline hfirst
  have hread := (worded_iff hline).mp hwords
  have htokens : ∃ rest, lineTokens text.toList = .word w :: rest ∧ wordsOf rest = ws := by
    rw [lineTokens, hread]
    have hall := wordsOf_lineTokens text.toList
    rw [lineTokens, hread] at hall
    exact ⟨ws.map Token.word ++ lineComment text.toList, rfl, (List.cons.inj hall).2⟩
  obtain ⟨rest, htokens, hrest⟩ := htokens
  have hl : SourceLine.ofChars? 1 text.toList =
      some ⟨1, lineText text.toList, .word w, rest⟩ :=
    (SourceLine.ofChars?_eq_some_iff 1 _ _).mpr ⟨rfl, rfl, htokens⟩
  have hprogram := ofText_line hline hl (by simp) none
  refine ⟨w, ws, fun words => ?_, fun p => ?_, fun e => ?_⟩
  · rw [worded_iff hline, hread, eq_comm]
  · rw [hprogram, map_eq_ok_iff]
    constructor
    · rintro ⟨s, hs, rfl⟩
      obtain ⟨m, hm, hfits⟩ := SourceLine.instruction_eq_ok_iff.mp hs
      rw [hrest] at hfits
      exact ⟨m, s, hm, hfits, rfl⟩
    · rintro ⟨m, s, hm, hfits, rfl⟩
      exact ⟨s, SourceLine.instruction_eq_ok_iff.mpr ⟨m, hm, by rwa [hrest]⟩, rfl⟩
  · rw [hprogram, map_eq_error_iff, SourceLine.statement_eq_error_iff,
      ← Mnemonic.forall_text_ne_iff]
    constructor
    · rintro (⟨⟨rfl⟩, -, hw⟩ | @⟨m, reason, hm, -, hargs⟩)
      · exact .inl ⟨hw, rfl⟩
      · obtain ⟨rfl⟩ := hm
        rw [hrest] at hargs
        exact .inr ⟨m, reason, rfl, Statement.ofOperands_eq_error_iff.mp hargs, rfl⟩
    · rintro (⟨hw, rfl⟩ | ⟨m, reason, rfl, hmisfit, rfl⟩)
      · exact .unknownMnemonic rfl rfl hw
      · refine .malformed rfl rfl ?_
        rw [hrest]
        exact Statement.ofOperands_eq_error_iff.mpr hmisfit

theorem ofText_instruction_idle : Worded "\tI Q00 +007#idle 8".toList ["I", "Q00", "+007"] ∧
    ofText none "\tI Q00 +007#idle 8" = .ok ⟨[⟨1, .idle "Q00" 7⟩]⟩ := by
  obtain ⟨w, ws, hwords, hok, -⟩ :=
    ofText_instruction "\tI Q00 +007#idle 8" (by decide) ⟨'I', by decide, by decide⟩
  have hworded : Worded "\tI Q00 +007#idle 8".toList ["I", "Q00", "+007"] :=
    (worded_iff (by decide)).mpr (by decide)
  obtain ⟨rfl, rfl⟩ := List.cons.inj ((hwords _).mp hworded)
  have hduration : IsDuration "+007" 7 :=
    ⟨['0', '0', '7'], .inr (by decide), by decide, by simp, by decide⟩
  exact ⟨hworded, (hok _).mpr ⟨.idle, _, rfl, .idle hduration, rfl⟩⟩

end Program

end PulseScript
