import Mathlib
import PulseScript.Proofs.JsonText

/-!
# The headers of a context block

The header of a written decoupling sequence carries its pattern and its repeat count
exactly, and its two durations as far as their numbers read back. So a block that was
written for a valid sequence decodes to that sequence if both durations read back.
-/
namespace PulseScript

open Json (word?)

namespace PulseAxis

theorem ofJson?_toJson (axis : PulseAxis) : ofJson? axis.toJson = some axis := by
  cases axis <;> rfl

end PulseAxis

namespace Decoupling

/-- What a reader makes of the durations of a sequence. -/
def reread? (d : Decoupling) : Option Decoupling :=
  d.total.reread?.bind fun total => d.pulse.reread?.map fun pulse =>
    { d with total := total, pulse := pulse }

/-- The JSON text of both durations is read as these durations. -/
def ReadsBack (d : Decoupling) : Prop := d.total.ReadsBack ∧ d.pulse.ReadsBack

instance (d : Decoupling) : Decidable d.ReadsBack := inferInstanceAs (Decidable (_ ∧ _))

theorem reread?_eq_some_self_iff (d : Decoupling) : d.reread? = some d ↔ d.ReadsBack := by
  simp only [reread?, ReadsBack, Binary64.ReadsBack, Option.bind_eq_some_iff,
    Option.map_eq_some_iff]
  constructor
  · rintro ⟨total, ht, pulse, hp, he⟩
    obtain ⟨rfl, rfl⟩ : total = d.total ∧ pulse = d.pulse :=
      ⟨congrArg Decoupling.total he, congrArg Decoupling.pulse he⟩
    exact ⟨ht, hp⟩
  · rintro ⟨ht, hp⟩
    exact ⟨d.total, ht, d.pulse, hp, rfl⟩

/-- A sequence as its header shows it, given what the two durations are read as. -/
def header (d : Decoupling) (total pulse : Json) : Json :=
  let axis := match d.pattern with
    | .cpmg axis => [("pi_gate", axis.toJson)]
    | _ => []
  .tag d.name (.object ([(repeatField d.pattern, .ofWord32 d.repeats),
    (totalField, total), (pulseField, pulse)] ++ axis))

/-- The tokens of the axis, which only one family has. -/
def axisTokens : DecouplingPattern → List Json.Token
  | .cpmg axis => [.comma, .string (some "pi_gate"), .colon, .string (some axis.name)]
  | _ => []

/-- The tokens of a header, given what the two durations are read as. -/
def headerTokens (d : Decoupling) (total pulse : Json) : List Json.Token :=
  ([.openObject, .string (some d.name), .colon, .openObject,
    .string (some (repeatField d.pattern)), .colon, .scalar (.ofWord32 d.repeats), .comma,
    .string (some totalField), .colon, .scalar total, .comma,
    .string (some pulseField), .colon, .scalar pulse] : List Json.Token) ++
  (axisTokens d.pattern ++ ([.closeObject, .closeObject] : List Json.Token))

def headerEnd : DecouplingPattern → List Char
  | .cpmg axis =>
    ',' :: (Json.stringChars "pi_gate" ++ ':' :: (Json.stringChars axis.name ++ ['\x7d', '\x7d']))
  | _ => ['\x7d', '\x7d']

theorem gateContent_toList (d : Decoupling) :
    d.gateContent.toList =
      '\x7b' :: (Json.stringChars d.name ++ ':' :: '\x7b' ::
        (Json.stringChars (repeatField d.pattern) ++ ':' :: (decimalDigits d.repeats.toNat ++ ',' ::
          (Json.stringChars totalField ++ ':' :: (d.total.jsonChars ++ ',' ::
            (Json.stringChars pulseField ++ ':' :: (d.pulse.jsonChars ++ headerEnd d.pattern))))))) := by
  have hint : Json.intChars (d.repeats.toNat : Int) = decimalDigits d.repeats.toNat := by
    simp [Json.intChars, Binary64.signChars]
  rw [gateContent, Json.render, String.toList_ofList, toJson]
  cases d.pattern <;>
    simp [Json.tag, Json.chars, Json.membersChars, Json.ofWord32, hint, headerEnd, PulseAxis.toJson]

theorem word?_repeats (d : Decoupling) :
    word? (decimalDigits d.repeats.toNat) = some (.ofWord32 d.repeats) :=
  Json.word?_decimalDigits (Nat.lt_trans d.repeats.toNat_lt (by decide))

/-- The scanner at the end of a header, behind the pulse duration. -/
theorem foldlM_headerEnd (found : List Json.Token) (d : Decoupling) :
    (d.pulse.jsonChars ++ headerEnd d.pattern).foldlM Json.Scan.step ⟨found, .between⟩ =
      (word? d.pulse.jsonChars).bind fun v =>
        some ⟨(.scalar v :: (axisTokens d.pattern ++ [.closeObject, .closeObject])).reverse ++ found,
          .between⟩ := by
  have hbrace : Json.mark? '\x7d' = some .closeObject := rfl
  have hcomma : Json.mark? ',' = some .comma := rfl
  have hcolon : Json.mark? ':' = some .colon := rfl
  have hword {m : Char} {t : Json.Token} (hm : Json.mark? m = some t) :=
    Json.Scan.foldlM_word_mark found (Binary64.jsonChars_ne_nil d.pulse)
      (Binary64.isBare_jsonChars d.pulse) hm
  cases d.pattern with
  | cpmg axis =>
    rw [headerEnd, hword hcomma]
    simp only [Json.Scan.foldlM_stringChars, Json.Scan.foldlM_mark _ hcolon,
      Json.Scan.foldlM_mark _ hbrace]
    rfl
  | xy =>
    rw [show headerEnd .xy = ['\x7d', '\x7d'] from rfl, hword hbrace]
    simp only [Json.Scan.foldlM_mark _ hbrace]
    rfl
  | xyyx =>
    rw [show headerEnd .xyyx = ['\x7d', '\x7d'] from rfl, hword hbrace]
    simp only [Json.Scan.foldlM_mark _ hbrace]
    rfl

theorem tokens?_gateContent (d : Decoupling) :
    Json.tokens? d.gateContent.toList =
      (word? d.total.jsonChars).bind fun u => (word? d.pulse.jsonChars).map fun v =>
        d.headerTokens u v := by
  have hbrace : Json.mark? '\x7b' = some .openObject := rfl
  have hcomma : Json.mark? ',' = some .comma := rfl
  have hcolon : Json.mark? ':' = some .colon := rfl
  have hdigits : ∀ c ∈ decimalDigits d.repeats.toNat, Json.IsBare c :=
    fun c hc => Json.isBare_of_isDigit (isDigit_of_mem_decimalDigits hc)
  have hrepeats := fun found =>
    Json.Scan.foldlM_word_mark found (decimalDigits_ne_nil d.repeats.toNat) hdigits hcomma
  have htotal := fun found => Json.Scan.foldlM_word_mark found
    (Binary64.jsonChars_ne_nil d.total) (Binary64.isBare_jsonChars d.total) hcomma
  rw [Json.tokens?, gateContent_toList]
  simp only [Json.Scan.foldlM_mark _ hbrace, Json.Scan.foldlM_mark _ hcolon,
    Json.Scan.foldlM_stringChars, hrepeats, htotal, foldlM_headerEnd, word?_repeats,
    Option.bind_some]
  cases word? d.total.jsonChars with
  | none => rfl
  | some u =>
    cases word? d.pulse.jsonChars with
    | none => rfl
    | some v => simp [Json.Scan.finish, headerTokens]

theorem ofTokens?_headerTokens (d : Decoupling) (total pulse : Json) :
    Json.ofTokens? (d.headerTokens total pulse) = some (d.header total pulse) := by
  obtain ⟨pattern, repeats, t, p⟩ := d
  cases pattern <;> rfl

/-- A written header is read with the words that its durations are written as. -/
theorem ofText?_gateContent (d : Decoupling) :
    Json.ofText? d.gateContent =
      (word? d.total.jsonChars).bind fun u => (word? d.pulse.jsonChars).map fun v =>
        d.header u v := by
  rw [Json.ofText?, tokens?_gateContent]
  cases word? d.total.jsonChars with
  | none => rfl
  | some u =>
    cases word? d.pulse.jsonChars with
    | none => rfl
    | some v => simp [ofTokens?_headerTokens]

theorem word32?_ofWord32 (n : UInt32) : (Json.ofWord32 n).word32? = some n := by
  have hlt : (n.toNat : Int) < UInt32.size := by exact_mod_cast n.toNat_lt
  rw [Json.ofWord32, Json.word32?, if_pos ⟨Int.natCast_nonneg _, hlt⟩]
  simp

/-- A header carries the pattern and the repeat count exactly. -/
theorem ofJson?_header (d : Decoupling) (u v : Json) :
    ofJson? .namedOrOrdered (d.header u v) =
      u.number64?.bind fun total => v.number64?.map fun pulse =>
        { d with total := total, pulse := pulse } := by
  obtain ⟨pattern, repeats, t, p⟩ := d
  have hn := word32?_ofWord32 repeats
  cases pattern with
  | cpmg axis =>
    have ha := PulseAxis.ofJson?_toJson axis
    change (do return (⟨.cpmg (← PulseAxis.ofJson? axis.toJson), ← (Json.ofWord32 repeats).word32?,
      ← u.number64?, ← v.number64?⟩ : Decoupling)) = _
    rw [ha, hn]
    cases u.number64? <;> cases v.number64? <;> rfl
  | xy =>
    change (do return (⟨.xy, ← (Json.ofWord32 repeats).word32?, ← u.number64?, ← v.number64?⟩ :
      Decoupling)) = _
    rw [hn]
    cases u.number64? <;> cases v.number64? <;> rfl
  | xyyx =>
    change (do return (⟨.xyyx, ← (Json.ofWord32 repeats).word32?, ← u.number64?, ← v.number64?⟩ :
      Decoupling)) = _
    rw [hn]
    cases u.number64? <;> cases v.number64? <;> rfl

/-- The header of a sequence is read as the sequence with its durations read back. -/
theorem ofJson?_ofText?_gateContent (d : Decoupling) :
    (Json.ofText? d.gateContent).bind (ofJson? .namedOrOrdered) = d.reread? := by
  rw [ofText?_gateContent, reread?, Binary64.reread?_eq, Binary64.reread?_eq]
  cases word? d.total.jsonChars with
  | none => rfl
  | some u =>
    cases word? d.pulse.jsonChars with
    | none => simp
    | some v => exact ofJson?_header d u v

/-- The first header of a block, when it was written for a sequence. -/
theorem sequence_gateContent (d : Decoupling) (block : ContextBlock)
    (h : block.gate = d.gateContent) :
    block.sequence = match d.reread? with
      | none => .error .unreadableGate
      | some e =>
        match e.validate with
        | .error cause => .error (.invalidGate (.invalidDecoupling cause))
        | .ok () => .ok e := by
  have hread : (Json.ofText? block.gate).bind (ofJson? .namedOrOrdered) = d.reread? := by
    rw [h, ofJson?_ofText?_gateContent]
  rw [← hread]
  rfl

theorem tokens?_targetsContent (label : String) :
    Json.tokens? (targetsContent label).toList =
      some [.openArray, .string (some label), .closeArray] := by
  have hopen : Json.mark? '[' = some .openArray := rfl
  have hclose : Json.mark? ']' = some .closeArray := rfl
  have hchars : (targetsContent label).toList = '[' :: (Json.stringChars label ++ [']']) := by
    simp [targetsContent, Json.render, Json.chars, Json.itemsChars]
  rw [Json.tokens?, hchars, Json.Scan.foldlM_mark _ hopen, Json.Scan.foldlM_stringChars,
    Json.Scan.foldlM_mark _ hclose]
  rfl

/-- The second header of a block, when it was written for a label. -/
theorem labels_targetsContent (label : String) (block : ContextBlock)
    (h : block.targets = targetsContent label) : block.labels = .ok [label] := by
  have hread : Json.ofText? (targetsContent label) = some (.array [.string label]) := by
    rw [Json.ofText?, tokens?_targetsContent]
    rfl
  rw [ContextBlock.labels, h, hread]
  rfl

/-- A block that was written for a sequence and a label decodes to what its durations are
read as, if that is a valid sequence. -/
theorem decode_written (d : Decoupling) (label : String) (block : ContextBlock) (line : Nat)
    (hgate : block.gate = d.gateContent) (htargets : block.targets = targetsContent label) :
    (block.decode line).toOption =
      (d.reread?.filter fun e => e.validate.isOk).map fun e => (e, label) := by
  rw [ContextBlock.decode, sequence_gateContent d block hgate,
    labels_targetsContent label block htargets]
  cases d.reread? with
  | none => rfl
  | some e => cases hv : e.validate <;> simp [hv, Except.toOption, Except.isOk, Except.toBool]

end Decoupling

theorem newline_notMem_escapeChar (c : Char) : '\n' ∉ Json.escapeChar c := by
  unfold Json.escapeChar
  split
  case h_8 hq hb h8 hf hn hr ht =>
    have hhex : ∀ n, n < 16 → Json.hexDigit n ≠ '\n' := by decide
    split
    · rename_i hc
      have hlt : c.toNat < 32 := hc
      have h1 := hhex (c.toNat / 16) (by omega)
      have h2 := hhex (c.toNat % 16) (by omega)
      simp [h1.symm, h2.symm]
    · simpa using fun h => hn h.symm
  all_goals decide

theorem newline_notMem_stringChars (s : String) : '\n' ∉ Json.stringChars s := by
  simp [Json.stringChars, newline_notMem_escapeChar]

theorem newline_notMem_jsonChars (x : Binary64) : '\n' ∉ x.jsonChars := by
  intro h
  exact absurd (Binary64.isBare_jsonChars x _ h).2.1 (by decide)

theorem newline_notMem_decimalDigits (n : Nat) : '\n' ∉ decimalDigits n := by
  intro h
  exact absurd (isDigit_of_mem_decimalDigits h) (by decide)

namespace Decoupling

theorem newline_notMem_gateContent (d : Decoupling) : '\n' ∉ d.gateContent.toList := by
  rw [gateContent_toList]
  cases d.pattern <;>
    simp [headerEnd, newline_notMem_stringChars, newline_notMem_jsonChars,
      newline_notMem_decimalDigits]

theorem newline_notMem_targetsContent (label : String) :
    '\n' ∉ (targetsContent label).toList := by
  simp [targetsContent, Json.render, Json.chars, Json.itemsChars, newline_notMem_stringChars]

end Decoupling
end PulseScript
