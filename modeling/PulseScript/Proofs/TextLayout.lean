import Mathlib
import PulseScript.Proofs.Filtering
import PulseScript.Proofs.SilentLines

/-!
# What the text of a script may change in

The body of a block is passed over: whatever instructions, remarks or nonsense stand between the
headers of a block and its end, the script has the same circuit, or none for the same reason. And
the layout of a text says nothing: separators at the ends of a line are in none of its tokens, and
blank lines and remarks say nothing where they stand, so a script that is indented, commented or
given other line ends has the same circuit, too.
-/
namespace PulseScript

def IsBodyLine (line : String) : Prop :=
  ∀ text, firstToken? line = some (.comment text) → IsRemark text

instance (text : String) : Decidable (IsRemark text) :=
  decidable_of_iff (text ≠ contextStart ∧ text ≠ contextEnd ∧
      ContextHeader.gate.content? text = none ∧ ContextHeader.targets.content? text = none)
    ⟨fun ⟨hstart, hend, hgate, htargets⟩ => ⟨hstart, hend, fun h => by cases h <;> assumption⟩,
      fun h => ⟨h.ne_start, h.ne_end, h.content .gate, h.content .targets⟩⟩

instance (line : String) : Decidable (IsBodyLine line) :=
  match h : firstToken? line with
  | some (.comment text) => decidable_of_iff (IsRemark text) (by simp [IsBodyLine, h])
  | some (.word _) => .isTrue (by simp [IsBodyLine, h])
  | none => .isTrue (by simp [IsBodyLine, h])

section Lines

variable {n : Nat} {line : String} {l : SourceLine}

theorem IsBodyLine.silent (h : IsBodyLine line) (hl : SourceLine.ofChars? n line.toList = some l) :
    l.Silent true := by
  have hfirst := firstToken?_of_ofChars? hl
  unfold SourceLine.Silent
  cases hcase : l.first with
  | word w => rfl
  | comment text => exact h text (by rw [hfirst, hcase])

/-- A line without words is blank or a comment. -/
theorem SourceLine.exists_comment_of_lineWords (h : lineWords line.toList = [])
    (hl : SourceLine.ofChars? n line.toList = some l) : ∃ text, l.first = .comment text := by
  obtain ⟨-, -, htokens⟩ := (ofChars?_eq_some_iff n _ l).mp hl
  have hcomment : lineComment line.toList = l.first :: l.rest := by
    simpa [lineTokens, h] using htokens
  unfold lineComment at hcomment
  split at hcomment
  · cases hcomment
  · exact ⟨_, (List.cons.inj hcomment).1.symm⟩

/-- A blank line or a remark is silent inside a block and outside. -/
theorem IsBodyLine.silent_of_lineWords (h : IsBodyLine line) (hwords : lineWords line.toList = [])
    (isOpen : Bool) (hl : SourceLine.ofChars? n line.toList = some l) : l.Silent isOpen := by
  obtain ⟨text, hfirst⟩ := SourceLine.exists_comment_of_lineWords hwords hl
  have hremark : IsRemark text := h text (by rw [firstToken?_of_ofChars? hl, hfirst])
  unfold SourceLine.Silent
  cases isOpen with
  | true => simpa [hfirst] using hremark
  | false => simpa [hfirst] using hremark.ne_start

end Lines

namespace Relaid

variable {v : PlaceView} {isOpen : Bool} {ls ls' : List SourceLine} {o : Option SourceLine}

theorem added_of_silent (ho : ∀ l, o = some l → l.Silent isOpen) (h : Relaid v isOpen ls ls') :
    Relaid v isOpen ls (o.toList ++ ls') := by
  cases o with
  | none => exact h
  | some l => exact .added (ho l rfl) h

theorem removed_of_silent (ho : ∀ l, o = some l → l.Silent isOpen) (h : Relaid v isOpen ls ls') :
    Relaid v isOpen (o.toList ++ ls) ls' := by
  cases o with
  | none => exact h
  | some l => exact .removed (ho l rfl) h

/-- The same lines before both scripts. -/
theorem append_left (front : List SourceLine) (h : ∀ isOpen, Relaid v isOpen ls ls')
    (isOpen : Bool) : Relaid v isOpen (front ++ ls) (front ++ ls') := by
  induction front generalizing isOpen with
  | nil => exact h isOpen
  | cons l front ih => exact .line (.refl v l) (ih _)

end Relaid

/-- The second body is the first, but for lines that are no marker and no header in either. -/
def Rebodied : List String → List String → Prop :=
  List.Forall₂ fun line line' => line = line' ∨ IsBodyLine line ∧ IsBodyLine line'

theorem Rebodied.relaid {v : PlaceView} {body body' : List String} (h : Rebodied body body')
    (hend : ∀ line ∈ body, firstToken? line ≠ some (.comment contextEnd)) (n : Nat)
    (after : List SourceLine) :
    Relaid v true (numberedLines n body ++ after) (numberedLines n body' ++ after) := by
  induction h generalizing n with
  | nil => exact .refl v true after
  | @cons line line' body body' hline _ ih =>
    obtain ⟨hne, hend⟩ := List.forall_mem_cons.mp hend
    have hrest := ih hend (n + 1)
    rw [numberedLines_cons_ofChars?, numberedLines_cons_ofChars?, List.append_assoc,
      List.append_assoc]
    rcases hline with rfl | ⟨hplain, hplain'⟩
    · -- a line that stays leaves the block open, since it is no end
      cases hl : SourceLine.ofChars? n line.toList with
      | none => exact hrest
      | some l =>
        have hfirst : l.first ≠ .comment contextEnd := by
          intro he
          exact hne (by rw [firstToken?_of_ofChars? hl, he])
        have hopen : l.leavesOpen true = true := by simp [SourceLine.leavesOpen, hfirst]
        refine .line (.refl v l) ?_
        rw [hopen]
        exact hrest
    · exact .removed_of_silent (fun l hl => hplain.silent hl)
        (.added_of_silent (fun l hl => hplain'.silent hl) hrest)

/-- The body of a block is opaque. Where two scripts differ only between a start marker and the
next end, in as many lines that are no markers and no headers, both have the same circuit, or
none for the same reason at the same line, whatever the labels stand for and whatever is
filtered. -/
theorem Circuit.ofScript_eq_of_rebodied {source source' marker : String}
    {before body body' after : List String}
    (hsource : textLines source = before ++ marker :: (body ++ after))
    (hsource' : textLines source' = before ++ marker :: (body' ++ after))
    (hmarker : firstToken? marker = some (.comment contextStart))
    (hend : ∀ line ∈ body, firstToken? line ≠ some (.comment contextEnd))
    (hbody : Rebodied body body') (w : Wiring) (filter : Option LineFilter) :
    Circuit.ofScript w filter source = Circuit.ofScript w filter source' := by
  obtain ⟨start, hstart, -, hfirst⟩ := exists_ofChars?_of_firstToken? (1 + before.length) hmarker
  have hopen (isOpen : Bool) : start.leavesOpen isOpen = true := by
    simp [SourceLine.leavesOpen, hfirst]
  have hlength : body.length = body'.length := hbody.length_eq
  have hrelaid : Relaid .exact false (sourceLines source) (sourceLines source') := by
    rw [sourceLines_eq_numberedLines, sourceLines_eq_numberedLines, hsource, hsource',
      numberedLines_append, numberedLines_append]
    refine Relaid.append_left _ (fun isOpen => ?_) false
    rw [numberedLines_cons_ofChars?, numberedLines_cons_ofChars?, hstart]
    refine .line (.refl _ start) ?_
    rw [hopen, numberedLines_append, numberedLines_append, hlength]
    exact hbody.relaid hend _ _
  have hsame := hrelaid.ofScript w filter
  have hexact (x : Except ScriptError Circuit) : x.mapError (·.seen .exact) = x := by
    cases x with
    | ok c => rfl
    | error e => exact congrArg Except.error e.seen_exact
  rwa [hexact, hexact] at hsame

def blockText (body : List String) : String :=
  "\n".intercalate (["X q0", " # CIRQ_CONTEXT_START ", "# Gate: \x7b\"XY\":[1,200,50]\x7d",
    "# Targets: [\"q1\"]"] ++ body ++ ["# CIRQ_CONTEXT_END", "B A"])

theorem Circuit.ofScript_eq_of_rebodied_blockText : ∃ c,
    Circuit.ofScript .joinedPair (some ⟨["X"]⟩) (blockText ["X q1", "# idle", ""]) = .ok c ∧
    Circuit.ofScript .joinedPair (some ⟨["X"]⟩) (blockText ["B", "\tCZ # G", "# Gate:"]) =
      .ok c := by
  have hlines (body : List String) (h : ∀ l ∈ body, '\n' ∉ l.toList) :
      textLines (blockText body) = ["X q0"] ++ " # CIRQ_CONTEXT_START " ::
        (["# Gate: \x7b\"XY\":[1,200,50]\x7d", "# Targets: [\"q1\"]"] ++ body ++
          ["# CIRQ_CONTEXT_END", "B A"]) := by
    refine textLines_intercalate (by simp) ?_
    rw [List.forall_mem_append, List.forall_mem_append]
    exact ⟨⟨by decide +kernel, h⟩, by decide +kernel⟩
  have hbody : Rebodied
      ["# Gate: \x7b\"XY\":[1,200,50]\x7d", "# Targets: [\"q1\"]", "X q1", "# idle", ""]
      ["# Gate: \x7b\"XY\":[1,200,50]\x7d", "# Targets: [\"q1\"]", "B", "\tCZ # G", "# Gate:"] := by
    refine .cons (.inl rfl) (.cons (.inl rfl) (.cons ?_ (.cons ?_ (.cons ?_ .nil))))
    all_goals exact .inr ⟨by decide +kernel, by decide +kernel⟩
  have hsame := ofScript_eq_of_rebodied (hlines ["X q1", "# idle", ""] (by decide +kernel))
    (hlines ["B", "\tCZ # G", "# Gate:"] (by decide +kernel)) (by decide +kernel)
    (by decide +kernel) hbody .joinedPair (some ⟨["X"]⟩)
  have hsome : (Circuit.ofScript .joinedPair (some ⟨["X"]⟩)
      (blockText ["X q1", "# idle", ""])).toOption.isSome = true := by decide +kernel
  obtain ⟨c, hc⟩ := Option.isSome_iff_exists.mp hsome
  have hread := (toOption_eq_some_iff _ _).mp hc
  exact ⟨c, hread, hsame.symm.trans hread⟩

section Blank

variable {p : Char → Bool} {front cs back : List Char}

theorem dropEndWhile_append_of_all (h : ∀ c ∈ back, p c = true) :
    dropEndWhile p (cs ++ back) = dropEndWhile p cs := by
  rw [dropEndWhile, List.reverse_append,
    List.dropWhile_append_of_pos (fun c hc => h c (List.mem_reverse.mp hc)), dropEndWhile]

theorem stripWhile_all_append (h : ∀ c ∈ front, p c = true) :
    stripWhile p (front ++ cs) = stripWhile p cs := by
  rw [stripWhile, List.dropWhile_append_of_pos h, stripWhile]

theorem stripWhile_append_of_all (h : ∀ c ∈ back, p c = true) :
    stripWhile p (cs ++ back) = stripWhile p cs := by
  rw [stripWhile, List.dropWhile_append, stripWhile]
  split
  · rename_i hempty
    have hback : back.dropWhile p = [] := List.dropWhile_eq_nil_iff.mpr h
    rw [List.isEmpty_iff.mp hempty, hback]
  · exact dropEndWhile_append_of_all h

theorem exists_append_of_dropEndWhile (p : Char → Bool) (cs : List Char) :
    ∃ back, cs = dropEndWhile p cs ++ back ∧ ∀ c ∈ back, p c = true := by
  refine ⟨(cs.reverse.takeWhile p).reverse, ?_, fun c hc => ?_⟩
  · rw [dropEndWhile, ← List.reverse_append, List.takeWhile_append_dropWhile, List.reverse_reverse]
  · exact List.mem_takeWhile_imp (List.mem_reverse.mp hc)

theorem splitRuns_cons_of_pos {c : Char} (hc : p c = true) :
    splitRuns p (c :: cs) = splitRuns p cs := by
  cases cs <;> simp [splitRuns, hc]

theorem splitRuns_all_append (h : ∀ c ∈ front, p c = true) :
    splitRuns p (front ++ cs) = splitRuns p cs := by
  induction front with
  | nil => rfl
  | cons c front ih =>
    obtain ⟨hc, hfront⟩ := List.forall_mem_cons.mp h
    rw [List.cons_append, splitRuns_cons_of_pos hc, ih hfront]

theorem splitRuns_append_of_all (h : ∀ c ∈ back, p c = true) :
    splitRuns p (cs ++ back) = splitRuns p cs := by
  have hback : splitRuns p back = [] := by
    rw [← List.append_nil back, splitRuns_all_append h, splitRuns]
  induction cs with
  | nil => exact hback
  | cons c cs ih =>
    cases cs with
    | nil =>
      cases back with
      | nil => rfl
      | cons d back =>
        have hd : p d = true := h d (by simp)
        rw [splitRuns_cons_of_pos hd] at hback
        simp [splitRuns, hd, hback]
    | cons d cs =>
      rw [List.cons_append] at ih ⊢
      simp only [splitRuns, List.cons_append] at ih ⊢
      rw [ih]

end Blank

section Layout

variable {front line back : List Char}

theorem ne_hash_of_isSeparator {c : Char} (h : isSeparator c = true) : (c != '#') = true := by
  simp only [isSeparator, Bool.or_eq_true, beq_iff_eq] at h
  rcases h with (rfl | rfl) | rfl <;> decide

/-- Separators at the ends of a line are in none of its tokens. -/
theorem lineTokens_padded (hfront : ∀ c ∈ front, isSeparator c = true)
    (hback : ∀ c ∈ back, isSeparator c = true) :
    lineTokens (front ++ line ++ back) = lineTokens line := by
  have hfront' : ∀ c ∈ front, (c != '#') = true := fun c hc => ne_hash_of_isSeparator (hfront c hc)
  have hback' : ∀ c ∈ back, (c != '#') = true := fun c hc => ne_hash_of_isSeparator (hback c hc)
  have hblank : ∀ c ∈ back, isBlank c = true := fun c hc => isBlank_of_isSeparator (hback c hc)
  rw [List.append_assoc, lineTokens, lineTokens, lineWords, lineWords, lineComment, lineComment,
    List.takeWhile_append_of_pos hfront', List.dropWhile_append_of_pos hfront',
    splitRuns_all_append hfront]
  cases hcomment : line.dropWhile (· != '#') with
  | nil =>
    -- no hash, so all of the line is divided into words
    have hline : ∀ c ∈ line, (c != '#') = true := List.dropWhile_eq_nil_iff.mp hcomment
    rw [List.takeWhile_append_of_pos hline, List.takeWhile_eq_self_iff.mpr hback',
      List.takeWhile_eq_self_iff.mpr hline, splitRuns_append_of_all hback,
      List.dropWhile_append_of_pos hline, List.dropWhile_eq_nil_iff.mpr hback']
  | cons hash comment =>
    have hwords : (line ++ back).takeWhile (· != '#') = line.takeWhile (· != '#') := by
      rw [List.takeWhile_append, if_neg]
      intro hall
      have hsame := List.takeWhile_append_dropWhile (p := (· != '#')) (l := line)
      have hlength := congrArg List.length hsame
      rw [List.length_append, hall, hcomment] at hlength
      simp at hlength
    rw [hwords, List.dropWhile_append, hcomment]
    simp only [List.isEmpty_cons, Bool.false_eq_true, if_false, List.cons_append]
    rw [← List.cons_append, dropEndWhile_append_of_all hblank]

/-- The text of a line is the line, but for separators at its ends. -/
theorem stripWhile_lineText (line : List Char) :
    stripWhile isBlank (lineText line).toList = stripWhile isBlank line := by
  have hstart : stripWhile isBlank (line.dropWhile isSeparator) = stripWhile isBlank line := by
    have hfront : ∀ c ∈ line.takeWhile isSeparator, isBlank c = true :=
      fun c hc => isBlank_of_isSeparator (List.mem_takeWhile_imp hc)
    conv_rhs => rw [← List.takeWhile_append_dropWhile (p := isSeparator) (l := line)]
    rw [stripWhile_all_append hfront]
  rw [lineText, String.toList_ofList, ← hstart]
  split
  · rfl
  · obtain ⟨back, hsplit, hback⟩ :=
      exists_append_of_dropEndWhile isSeparator (line.dropWhile isSeparator)
    conv_rhs => rw [hsplit]
    rw [stripWhile_append_of_all fun c hc => isBlank_of_isSeparator (hback c hc)]

theorem stripWhile_lineText_padded (hfront : ∀ c ∈ front, isSeparator c = true)
    (hback : ∀ c ∈ back, isSeparator c = true) :
    stripWhile isBlank (lineText (front ++ line ++ back)).toList =
      stripWhile isBlank (lineText line).toList := by
  rw [stripWhile_lineText, stripWhile_lineText,
    stripWhile_append_of_all fun c hc => isBlank_of_isSeparator (hback c hc),
    stripWhile_all_append fun c hc => isBlank_of_isSeparator (hfront c hc)]

end Layout

/-- The second text has the lines of the first with separators put to their ends, but for blank
lines and comments that are no marker and no header. -/
inductive Respaced : List String → List String → Prop where
  | nil : Respaced [] []
  | line {front line back : String} {lines lines' : List String}
    (hfront : ∀ c ∈ front.toList, isSeparator c = true)
    (hback : ∀ c ∈ back.toList, isSeparator c = true) (h : Respaced lines lines') :
    Respaced (line :: lines) ((front ++ line ++ back) :: lines')
  | added {line : String} {lines lines' : List String} (hwords : lineWords line.toList = [])
    (hline : IsBodyLine line) (h : Respaced lines lines') : Respaced lines (line :: lines')
  | removed {line : String} {lines lines' : List String} (hwords : lineWords line.toList = [])
    (hline : IsBodyLine line) (h : Respaced lines lines') : Respaced (line :: lines) lines'

theorem SourceLine.Alike.of_padded {front line back : String} {n n' : Nat} {l l' : SourceLine}
    (hfront : ∀ c ∈ front.toList, isSeparator c = true)
    (hback : ∀ c ∈ back.toList, isSeparator c = true)
    (hl : SourceLine.ofChars? n line.toList = some l)
    (hl' : SourceLine.ofChars? n' (front ++ line ++ back).toList = some l') :
    l.Alike .unplaced l' := by
  rw [String.toList_append, String.toList_append] at hl'
  obtain ⟨-, htext, htokens⟩ := (ofChars?_eq_some_iff n _ l).mp hl
  obtain ⟨-, htext', htokens'⟩ := (ofChars?_eq_some_iff n' _ l').mp hl'
  rw [lineTokens_padded hfront hback, htokens] at htokens'
  obtain ⟨hfirst, hrest⟩ := List.cons.inj htokens'
  have hstrip : stripWhile isBlank l.text.toList = stripWhile isBlank l'.text.toList := by
    rw [htext, htext', stripWhile_lineText_padded hfront hback]
  exact ⟨rfl, congrArg String.ofList hstrip, hfirst, hrest,
    fun f => by rw [LineFilter.ignores, LineFilter.ignores, hstrip]⟩

theorem Respaced.relaid {lines lines' : List String} (h : Respaced lines lines') (n n' : Nat)
    (isOpen : Bool) :
    Relaid .unplaced isOpen (numberedLines n lines) (numberedLines n' lines') := by
  induction h generalizing n n' isOpen with
  | nil => exact .nil isOpen
  | @line front line back lines lines' hfront hback _ ih =>
    rw [numberedLines_cons_ofChars?, numberedLines_cons_ofChars?]
    have htokens : lineTokens (front ++ line ++ back).toList = lineTokens line.toList := by
      rw [String.toList_append, String.toList_append, lineTokens_padded hfront hback]
    cases hl : SourceLine.ofChars? n line.toList with
    | none =>
      have hnone : SourceLine.ofChars? n' (front ++ line ++ back).toList = none := by
        rw [SourceLine.ofChars?_eq_none_iff, htokens]
        exact (SourceLine.ofChars?_eq_none_iff n _).mp hl
      rw [hnone]
      exact ih _ _ isOpen
    | some l =>
      have hfirst : firstToken? (front ++ line ++ back) = some l.first := by
        rw [firstToken?, htokens]
        exact firstToken?_of_ofChars? hl
      obtain ⟨l', hl', -⟩ := exists_ofChars?_of_firstToken? n' hfirst
      rw [hl']
      exact .line (.of_padded hfront hback hl hl') (ih _ _ _)
  | added hwords hline _ ih =>
    rw [numberedLines_cons_ofChars? n']
    exact .added_of_silent (fun l hl => hline.silent_of_lineWords hwords isOpen hl) (ih _ _ isOpen)
  | removed hwords hline _ ih =>
    rw [numberedLines_cons_ofChars? n]
    exact .removed_of_silent (fun l hl => hline.silent_of_lineWords hwords isOpen hl)
      (ih _ _ isOpen)

/-- The layout of a text carries no meaning. With separators at the ends of lines, and with blank
lines and remarks between them, a script has the same circuit as before, or none for the same
reason, which then names the new place of the same line. -/
theorem Circuit.ofScript_respaced {source source' : String}
    (h : Respaced (textLines source) (textLines source')) (w : Wiring)
    (filter : Option LineFilter) :
    (Circuit.ofScript w filter source).mapError (·.seen .unplaced) =
      (Circuit.ofScript w filter source').mapError (·.seen .unplaced) := by
  have hrelaid : Relaid .unplaced false (sourceLines source) (sourceLines source') := by
    rw [sourceLines_eq_numberedLines, sourceLines_eq_numberedLines]
    exact h.relaid 1 1 false
  exact hrelaid.ofScript w filter

theorem Circuit.ofScript_respaced_twoLines : ∃ c,
    (Circuit.ofScript .joinedPair none "X q0\nB A\n").mapError (·.seen .unplaced) = .ok c ∧
    (Circuit.ofScript .joinedPair none "\tX q0 \r\n\r\n# note\nB A\r").mapError
      (·.seen .unplaced) = .ok c := by
  have hlines : textLines "X q0\nB A\n" = ["X q0", "B A", ""] := by decide +kernel
  have hlines' : textLines "\tX q0 \r\n\r\n# note\nB A\r" =
      ["\t" ++ "X q0" ++ " \r", "\r", "# note", "" ++ "B A" ++ "\r"] := by decide +kernel
  have hrespaced : Respaced (textLines "X q0\nB A\n")
      (textLines "\tX q0 \r\n\r\n# note\nB A\r") := by
    rw [hlines, hlines']
    refine .line (by simp [isSeparator]) (by simp [isSeparator]) ?_
    refine .added (by decide +kernel) (by decide +kernel) ?_
    refine .added (by decide +kernel) (by decide +kernel) ?_
    refine .line (by simp) (by simp [isSeparator]) ?_
    exact .removed (by decide +kernel) (by decide +kernel) .nil
  have hsame := ofScript_respaced hrespaced .joinedPair none
  have hsome : (Circuit.ofScript .joinedPair none "X q0\nB A\n").toOption.isSome = true := by
    decide +kernel
  obtain ⟨c, hc⟩ := Option.isSome_iff_exists.mp hsome
  have hread := (toOption_eq_some_iff _ _).mp hc
  rw [hread] at hsame
  exact ⟨c, by rw [hread]; rfl, hsame.symm⟩

end PulseScript
