import PulseScript.Text.Numeral
import PulseScript.Binary64.Rounding

/-!
Between numbers of the format and decimal numbers. A decimal is read as the number
nearest to its exact value. A number is written with the fewest digits that read
back as that number, and among those as near to it as possible.
-/
namespace PulseScript

/-- `digits * 10 ^ exponent`. -/
structure Decimal where
  digits : Nat
  exponent : Int
  deriving DecidableEq, Repr

inductive TieRule where
  | upward | toEven
  deriving DecidableEq, Repr

namespace Binary64

/-- The number nearest to a decimal. The range of the format decides the
extreme exponents before any power of ten is computed. -/
def ofDecimal (negative : Bool) (d : Decimal) : Binary64 :=
  if d.digits = 0 then zero negative
  else if 400 < d.exponent then .infinite negative
  else if d.exponent + (decimalDigits d.digits).length < -400 then zero negative
  else if 0 ≤ d.exponent then nearest negative (d.digits * Nat.pow 10 d.exponent.toNat) 1
  else nearest negative d.digits (Nat.pow 10 (-d.exponent).toNat)

/-- `significand * 2 ^ exponent` as a quotient. -/
def quotient (significand : Nat) (exponent : Int) : Nat × Nat :=
  if 0 ≤ exponent then (significand * Nat.pow 2 exponent.toNat, 1)
  else (significand, Nat.pow 2 (-exponent).toNat)

/-- `significand * 2 ^ exponent` as a decimal, with all of its digits. -/
def exactDecimal (significand : Nat) (exponent : Int) : Decimal :=
  if 0 ≤ exponent then ⟨significand * Nat.pow 2 exponent.toNat, 0⟩
  else ⟨significand * Nat.pow 5 (-exponent).toNat, exponent⟩

/-- `num / den` counted in units of `10 ^ place`, as a quotient. -/
def inTens (num den : Nat) (place : Int) : Nat × Nat :=
  if 0 ≤ place then (num, den * Nat.pow 10 place.toNat)
  else (num * Nat.pow 10 (-place).toNat, den)

/-- A power of ten above `num / den`, or equal to it, that a shortest decimal can
still start from. -/
def topPlace (num den : Nat) : Int :=
  if den ≤ num then (decimalDigits (num / den)).length
  else 1 - ((decimalDigits (den / num)).length : Int)

/-- The two multiples of `10 ^ place` around `num / den`, the nearer one first. -/
def neighbours (tie : TieRule) (num den : Nat) (place : Int) : List Decimal :=
  let units := inTens num den place
  let below := units.1 / units.2
  let rest := units.1 % units.2
  let lower : Decimal := ⟨below, place⟩
  let upper : Decimal := ⟨below + 1, place⟩
  let upperFirst : Bool :=
    units.2 < 2 * rest || (2 * rest == units.2 && (tie == .upward || below % 2 == 1))
  if upperFirst then [upper, lower] else [lower, upper]

/-- The shortest decimal that reads back as the magnitude `m * 2 ^ e`, which is
passed as the number `x` too. Coarser grids come first, so the first decimal found
has the fewest digits; seventeen digits always suffice. -/
def shortestOf (tie : TieRule) (x : Binary64) (m : Nat) (e : Int) : Decimal :=
  let q := quotient m e
  let top := topPlace q.1 q.2
  let found := (List.range 19).findSome? fun (i : Nat) =>
    (neighbours tie q.1 q.2 (top - i)).find? fun d => decide (ofDecimal false d = x)
  found.getD (exactDecimal m e)

/-- The shortest decimal of a finite magnitude; zero is the digit 0. -/
def shortest (tie : TieRule) (m : Nat) (e : Int) : Decimal :=
  if m = 0 then ⟨0, 0⟩ else shortestOf tie (pack false m e) m e

end Binary64
end PulseScript
