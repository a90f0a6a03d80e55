import PulseScript.Binary64.Basic

/-!
Rounding a quotient of natural numbers to the nearest number of the format, a
half going to the even significand. Every arithmetic operation and every decimal
literal is rounded here and nowhere else.
-/
namespace PulseScript

/-- The whole number nearest to `num / den`, a half going to the even one. -/
def roundHalfEven (num den : Nat) : Nat :=
  let quotient := num / den
  let rest := num % den
  if 2 * rest < den then quotient
  else if den < 2 * rest then quotient + 1
  else quotient + quotient % 2

namespace Binary64

/-- `num / den` counted in units of `2 ^ exponent`, as a quotient. -/
def inUnits (num den : Nat) (exponent : Int) : Nat × Nat :=
  if 0 ≤ exponent then (num, den * Nat.pow 2 exponent.toNat)
  else (num * Nat.pow 2 (-exponent).toNat, den)

/-- The exponent at which `num / den` has a significand of 53 bits, or the least
exponent for smaller quotients. The lengths of the operands leave two candidates. -/
def lastPlace (num den : Nat) : Int :=
  let guess : Int := (num.log2 : Int) - (den.log2 : Int) - 52
  let units := inUnits num den guess
  max (if Nat.pow 2 52 ≤ units.1 / units.2 then guess else guess - 1) (-1074)

/-- The number nearest to `num / den`; a zero takes the given sign. -/
def nearest (negative : Bool) (num den : Nat) : Binary64 :=
  if num = 0 then zero negative
  else
    let exponent := lastPlace num den
    let units := inUnits num den exponent
    let significand := roundHalfEven units.1 units.2
    if significand < Nat.pow 2 53 then pack negative significand exponent
    else pack negative (Nat.pow 2 52) (exponent + 1)

/-- The number nearest to `value * 2 ^ exponent`; a zero takes the given sign. -/
def ofDyadic (zeroNegative : Bool) (value : Int) (exponent : Int) : Binary64 :=
  if value = 0 then zero zeroNegative
  else if 0 ≤ exponent then nearest (value < 0) (value.natAbs * Nat.pow 2 exponent.toNat) 1
  else nearest (value < 0) value.natAbs (Nat.pow 2 (-exponent).toNat)

def ofInt (value : Int) : Binary64 := ofDyadic false value 0

def ofNat (value : Nat) : Binary64 := ofInt value

end Binary64
end PulseScript
