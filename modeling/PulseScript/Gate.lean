import PulseScript.Angle

/-!
Gates: the ones with a known meaning, and custom ones that carry only a name, a number
of qubits and parameters.
-/
namespace PulseScript

inductive StandardGate where
  | identity
  | x
  | y
  | z
  | hadamard
  | s
  | sDagger
  | t
  | tDagger
  | sqrtX
  | sqrtXDagger
  | rx (angle : Angle)
  | ry (angle : Angle)
  | rz (angle : Angle)
  | cx
  | cz
  | swap
  deriving DecidableEq, Repr

namespace StandardGate

def name : StandardGate → String
  | identity => "id"
  | x => "x"
  | y => "y"
  | z => "z"
  | hadamard => "h"
  | s => "s"
  | sDagger => "sdg"
  | t => "t"
  | tDagger => "tdg"
  | sqrtX => "sx"
  | sqrtXDagger => "sxdg"
  | rx _ => "rx"
  | ry _ => "ry"
  | rz _ => "rz"
  | cx => "cx"
  | cz => "cz"
  | swap => "swap"

def arity : StandardGate → UInt32
  | cx => 2
  | cz => 2
  | swap => 2
  | _ => 1

/-- Exchanging the two operands leaves the gate as it is. -/
def isSymmetric : StandardGate → Bool
  | cz => true
  | swap => true
  | _ => false

/-- Equality of gates, in which angles are compared by `Angle.beq`. -/
def beq : StandardGate → StandardGate → Bool
  | rx a, rx b => a == b
  | ry a, ry b => a == b
  | rz a, rz b => a == b
  | rx _, _ => false
  | ry _, _ => false
  | rz _, _ => false
  | g, h => decide (g = h)

instance : BEq StandardGate := ⟨beq⟩

end StandardGate

structure CustomGate where
  name : String
  arity : UInt32
  params : List Angle
  deriving DecidableEq, Repr

instance : BEq CustomGate :=
  ⟨fun g h => g.name == h.name && g.arity == h.arity && g.params == h.params⟩

inductive Gate where
  | standard (gate : StandardGate)
  | custom (gate : CustomGate)
  deriving DecidableEq, Repr

namespace Gate

def name : Gate → String
  | standard g => g.name
  | custom g => g.name

def arity : Gate → UInt32
  | standard g => g.arity
  | custom g => g.arity

/-- Whether the order of the operands has no meaning; this is known of standard gates
only. -/
def isSymmetric : Gate → Bool
  | standard g => g.isSymmetric
  | custom _ => false

def beq : Gate → Gate → Bool
  | standard g, standard h => g == h
  | custom g, custom h => g == h
  | _, _ => false

instance : BEq Gate := ⟨beq⟩

end Gate
end PulseScript
