import PulseScript.Binary64.Decimal
import PulseScript.Binary64.Arithmetic

/-!
The written forms of a number: the plain form of messages, the form of JSON text,
and a form with a fixed number of places. The plain form is always positional; JSON
writes very large and very small magnitudes with an exponent. The reader of plain
numerals stands beside them.
-/
namespace PulseScript

/-- A decimal in positional notation, with at least one digit before the point.
Whole numbers have no point. -/
def Decimal.positional (d : Decimal) : List Char :=
  let ds := decimalDigits d.digits
  if 0 ≤ d.exponent then ds ++ List.replicate d.exponent.toNat '0'
  else
    let places := (-d.exponent).toNat
    let padded := List.replicate (places + 1 - ds.length) '0' ++ ds
    let point := padded.length - places
    padded.take point ++ '.' :: padded.drop point

/-- A decimal as one digit, the others after a point, and an exponent that always
has its sign. -/
def Decimal.scientific (d : Decimal) : List Char :=
  let ds := decimalDigits d.digits
  let exponent := d.exponent + ds.length - 1
  let fraction := match ds.drop 1 with
    | [] => []
    | rest => '.' :: rest
  ds.take 1 ++ fraction ++ 'e' :: (if exponent < 0 then '-' else '+') ::
    decimalDigits exponent.natAbs

namespace Binary64

def signChars (negative : Bool) : List Char := if negative then ['-'] else []

/-- The plain form: the shortest digits, a tie going up, in positional notation. -/
def plain : Binary64 → String
  | .nan => "NaN"
  | .infinite s => if s then "-inf" else "inf"
  | .finite s m e _ => String.ofList (signChars s ++ (shortest .upward m e).positional)

/-- The form of JSON text: positional, with at least one place, from `1e-5` up to
below `1e16`, and with an exponent elsewhere. What is not finite has none. -/
def jsonChars : Binary64 → List Char
  | .finite s m e _ =>
    let d := shortest .toEven m e
    let scale := d.exponent + (decimalDigits d.digits).length - 1
    let body :=
      if m ≠ 0 ∧ (scale < -5 ∨ 16 ≤ scale) then d.scientific
      else if 0 ≤ d.exponent then d.positional ++ ['.', '0']
      else d.positional
    signChars s ++ body
  | _ => ['n', 'u', 'l', 'l']

/-- The form with a fixed number of places, rounded from the exact value with a half
going to the even digit. -/
def fixed (places : Nat) : Binary64 → String
  | .nan => "NaN"
  | .infinite s => if s then "-inf" else "inf"
  | .finite s m e _ =>
    let q := quotient m e
    let units := roundHalfEven (q.1 * Nat.pow 10 places) q.2
    String.ofList (signChars s ++ Decimal.positional ⟨units, -places⟩)

/-- The words for the values that have no digits, in any mixture of cases. -/
def specialWord? (negative : Bool) (cs : List Char) : Option Binary64 :=
  match String.ofList (cs.map Char.toLower) with
  | "nan" => some .nan
  | "inf" => some (.infinite negative)
  | "infinity" => some (.infinite negative)
  | _ => none

/-- A plain numeral without its sign, or a word for a special value. At least one
digit is needed, before the point or after it. -/
def ofUnsigned? (negative : Bool) (cs : List Char) : Option Binary64 :=
  match specialWord? negative cs with
  | some x => some x
  | none =>
    match Numeral.ofChars? cs with
    | none => none
    | some n =>
      if n.whole = [] ∧ n.fraction.getD [] = [] then none
      else some (ofDecimal negative ⟨n.digits, n.place⟩)

/-- Reads a number in plain form, with an optional sign; an exponent may be used. -/
def ofText? (s : String) : Option Binary64 :=
  match s.toList with
  | '-' :: cs => ofUnsigned? true cs
  | '+' :: cs => ofUnsigned? false cs
  | cs => ofUnsigned? false cs

end Binary64
end PulseScript
