import PulseScript.Binary64.Text

/-!
Rotation angles. An angle is an expression in radians; it has a value unless a symbol
occurs in it or a divisor evaluates to zero. Finite values are wrapped into one turn
around zero before they are compared with anything.
-/
namespace PulseScript

inductive Angle where
  | constant (value : Binary64)
  | symbol (name : String)
  | pi
  | neg (angle : Angle)
  | product (left right : Angle)
  | quotient (dividend divisor : Angle)
  deriving DecidableEq, Repr

namespace Angle

/-- The value in radians. The divisor of a quotient is looked at first. -/
def value? : Angle → Option Binary64
  | constant x => some x
  | symbol _ => none
  | pi => some Binary64.pi
  | neg a => a.value?.map (- ·)
  | product a b =>
    match a.value? with
    | none => none
    | some x => b.value?.map (x * ·)
  | quotient a b =>
    match b.value? with
    | none => none
    | some d => if d.isZero then none else a.value?.map (· / d)

/-- The value wrapped above minus half a turn and up to half a turn. What is not finite
has none. -/
def wrapped? (a : Angle) : Option Binary64 :=
  match a.value? with
  | none => none
  | some x =>
    if x.isFinite then
      let r := x.modulo Binary64.turn
      some (if Binary64.lt Binary64.pi r then r - Binary64.turn else r)
    else none

/-- The expression with every product and quotient in brackets. -/
def text : Angle → String
  | constant x => x.plain
  | symbol name => name
  | pi => "π"
  | neg a => "-(" ++ a.text ++ ")"
  | product a b => "(" ++ a.text ++ " * " ++ b.text ++ ")"
  | quotient a b => "(" ++ a.text ++ " / " ++ b.text ++ ")"

/-- Equality of expressions, in which constants are compared as numbers. -/
def beq : Angle → Angle → Bool
  | constant x, constant y => x == y
  | symbol m, symbol n => m == n
  | pi, pi => true
  | neg a, neg b => beq a b
  | product a b, product c d => beq a c && beq b d
  | quotient a b, quotient c d => beq a c && beq b d
  | _, _ => false

instance : BEq Angle := ⟨beq⟩

end Angle
end PulseScript
