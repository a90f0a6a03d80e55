/-!
Binary floating-point numbers of 64 bits, as exact values. A finite number is a
signed significand times a power of two, kept in the one form that the format
gives it, so equal values (with equal signs of zero) are equal terms. No machine
float is involved, and every operation on these numbers is computed exactly and
rounded once.
-/
namespace PulseScript

/-- The one form of each finite magnitude: 53 bits at most, all 53 of them in use
unless the exponent is the least one. -/
def CanonicalPair (significand : Nat) (exponent : Int) : Prop :=
  significand < Nat.pow 2 53 ∧ -1074 ≤ exponent ∧ exponent ≤ 971 ∧
    (Nat.pow 2 52 ≤ significand ∨ exponent = -1074)

instance (significand : Nat) (exponent : Int) :
    Decidable (CanonicalPair significand exponent) :=
  inferInstanceAs (Decidable (_ ∧ _ ∧ _ ∧ (_ ∨ _)))

/-- A number of the format: `finite s m e` stands for `m * 2 ^ e`, negated if `s`. -/
inductive Binary64 where
  | nan
  | infinite (negative : Bool)
  | finite (negative : Bool) (significand : Nat) (exponent : Int)
      (canonical : CanonicalPair significand exponent)
  deriving DecidableEq, Repr

namespace Binary64

def zero (negative : Bool) : Binary64 :=
  .finite negative 0 (-1074) (by decide)

/-- The number with this significand and exponent. A pair beyond the largest
exponent stands for a magnitude that overflows. -/
def pack (negative : Bool) (significand : Nat) (exponent : Int) : Binary64 :=
  if h : CanonicalPair significand exponent then .finite negative significand exponent h
  else .infinite negative

theorem pack_of_canonical {m : Nat} {e : Int} (s : Bool) (h : CanonicalPair m e) :
    pack s m e = .finite s m e h := by
  simp [pack, h]

/-- The ratio of a circle's circumference to its diameter, rounded. -/
def pi : Binary64 := .finite false 7074237752028440 (-51) (by decide)

/-- Twice the number `pi`. -/
def turn : Binary64 := .finite false 7074237752028440 (-50) (by decide)

def quarterTurn : Binary64 := .finite false 7074237752028440 (-52) (by decide)

def isFinite : Binary64 → Bool
  | .finite .. => true
  | _ => false

/-- The opposite sign, of zero and infinity too. -/
def neg : Binary64 → Binary64
  | .nan => .nan
  | .infinite s => .infinite !s
  | .finite s m e h => .finite (!s) m e h

def abs : Binary64 → Binary64
  | .nan => .nan
  | .infinite _ => .infinite false
  | .finite _ m e h => .finite false m e h

instance : Neg Binary64 := ⟨neg⟩

@[simp] theorem neg_neg (x : Binary64) : - -x = x := by
  show neg (neg x) = x
  cases x <;> simp [neg]

end Binary64
end PulseScript
