import PulseScript.Binary64.Arithmetic
import PulseScript.Binary64.Decimal
import PulseScript.Json.Basic

/-!
The numbers of JSON text. An integer that fits 64 bits is kept as it is. Any other number
is read by its leading digits: as many as fit a word of 64 bits are rounded to the format
and then scaled by a power of ten, which rounds again. So a number with few digits and a
small exponent is read exactly, and one with many can miss the nearest number by a little. A
reader that always finds the nearest number would be another one.
-/
namespace PulseScript

namespace Decimal

/-- The word one digit longer, if it still fits 64 bits. -/
def extended? (word : Nat) (digit : Char) : Option Nat :=
  let longer := word * 10 + (digit.toNat - '0'.toNat)
  if longer < UInt64.size then some longer else none

/-- Goes on with digits before the point. From the first that does not fit, each counts by
its place alone. -/
def addWhole (d : Decimal) : List Char → Decimal
  | [] => d
  | c :: cs =>
    match extended? d.digits c with
    | some word => addWhole ⟨word, d.exponent⟩ cs
    | none => ⟨d.digits, d.exponent + (cs.length + 1)⟩

/-- Goes on with digits behind the point. From the first that does not fit, none counts. -/
def addFraction (d : Decimal) : List Char → Decimal
  | [] => d
  | c :: cs =>
    match extended? d.digits c with
    | some word => addFraction ⟨word, d.exponent - 1⟩ cs
    | none => d

/-- The leading digits of a numeral that fit a word of 64 bits, at their place. -/
def leading (n : Numeral) : Decimal :=
  let d := (addWhole ⟨0, 0⟩ n.whole).addFraction (n.fraction.getD [])
  ⟨d.digits, d.exponent + n.exponent.getD 0⟩

end Decimal

namespace Binary64

/-- A power of ten, rounded; there is none above the largest exponent of the format. -/
def powerOfTen (exponent : Nat) : Binary64 := ofDecimal false ⟨1, exponent⟩

def largestPower : Nat := 308

/-- Rounds the digits, and multiplies or divides them by a power of ten. A divisor beyond
the largest power is divided by in two steps, which are enough to bring any word of 64
bits down to zero. -/
def scaled (d : Decimal) : Binary64 :=
  let x := ofNat d.digits
  if 0 ≤ d.exponent then
    if d.exponent ≤ largestPower then x * powerOfTen d.exponent.toNat
    else if d.digits = 0 then x
    else .infinite false
  else
    let places := (-d.exponent).toNat
    if places ≤ largestPower then x / powerOfTen places
    else if places ≤ 2 * largestPower then
      x / powerOfTen largestPower / powerOfTen (places - largestPower)
    else zero false

end Binary64

namespace Json

/-- A number in JSON form is an integer if it has neither point nor exponent and fits
64 bits, signed or not. A negative zero is no integer. -/
def ofNumeral (negative : Bool) (n : Numeral) : Json :=
  let isInt := n.isWhole && (if negative then n.digits != 0 && n.digits ≤ Nat.pow 2 63
    else n.digits < UInt64.size)
  if isInt then .int (if negative then -(n.digits : Int) else n.digits)
  else
    let x := Binary64.scaled (.leading n)
    if x.isFinite then .float (if negative then -x else x) else .unreadable

/-- A number as JSON writes it: no leading zero, and digits on both sides of a point. -/
def number? (cs : List Char) : Option Json :=
  let negative := cs.head? = some '-'
  match Numeral.ofChars? (if negative then cs.drop 1 else cs) with
  | none => none
  | some n =>
    if n.whole = [] ∨ (n.whole ≠ ['0'] ∧ n.whole.head? = some '0') ∨ n.fraction = some [] then
      none
    else some (ofNumeral negative n)

end Json
end PulseScript
