import PulseScript.Gate
import PulseScript.Noise
import PulseScript.BuildError

/-!
Operations, moments and circuits. An operation may hold a whole circuit, so the three
types are declared together, and what is defined by recursion on one of them is defined
on all. The constructors with checks refuse repeated or missing operands; the types
themselves do not, because stored circuits are read without checks.
-/
namespace PulseScript

inductive Action where
  | gate (gate : Gate)
  | measure
  | delay (nanoseconds : UInt64)
  | noise (channel : NoiseChannel)
  | marker (marker : Marker)
  | decoupling (sequence : Decoupling)

namespace Action

def name : Action → String
  | gate g => g.name
  | measure => "measure"
  | delay _ => "delay"
  | noise channel => channel.name
  | marker a => a.name
  | decoupling d => d.name

/-- Whether the order of the operands has no meaning. -/
def isSymmetric : Action → Bool
  | gate g => g.isSymmetric
  | _ => false

/-- Equality of actions, in which numbers are compared as such. -/
def beq : Action → Action → Bool
  | gate g, gate h => g == h
  | measure, measure => true
  | delay m, delay n => m == n
  | noise c, noise d => c == d
  | marker a, marker b => a == b
  | decoupling d, decoupling e => d == e
  | _, _ => false

instance : BEq Action := ⟨beq⟩

end Action

mutual
inductive Operation where
  | act (action : Action) (qubits : List Qubit)
  | subcircuit (circuit : Circuit) (repetitions : UInt32) (qubits : List Qubit)

structure Moment where
  operations : List Operation

structure Circuit where
  moments : List Moment
end

/-- The list without its first element that satisfies `p`, if there is one. -/
def removeFirst? (p : α → Bool) : List α → Option (List α)
  | [] => none
  | x :: xs => if p x then some xs else (removeFirst? p xs).map (x :: ·)

/-- Each element takes the first one that is left on the other side and fits it, and none is left
over. -/
def pairsOff (fits : α → β → Bool) : List α → List β → Bool
  | [], ys => ys.isEmpty
  | x :: xs, ys =>
    match removeFirst? (fits x) ys with
    | some rest => pairsOff fits xs rest
    | none => false

namespace Operation

/-- Whether two operand lists mean the same: as lists, or up to their order. -/
def sameOperands (symmetric : Bool) (qs rs : List Qubit) : Bool :=
  if symmetric then qs.isPerm rs else qs == rs

end Operation

mutual
/-- Equality of operations. The operands of symmetric gates are compared up to their
order, and the operations of a moment too. -/
def Operation.beq : Operation → Operation → Bool
  | .act a qs, .act b rs => a == b && Operation.sameOperands a.isSymmetric qs rs
  | .subcircuit ⟨c⟩ m qs, .subcircuit ⟨d⟩ n rs => momentsBeq c d && m == n && qs == rs
  | _, _ => false
termination_by x y => sizeOf x + sizeOf y

def momentsBeq : List Moment → List Moment → Bool
  | [], [] => true
  | ⟨xs⟩ :: c, ⟨ys⟩ :: d => operationsBeq xs ys && momentsBeq c d
  | _, _ => false
termination_by c d => sizeOf c + sizeOf d

def operationsBeq (xs ys : List Operation) : Bool :=
  pairsOff (fun x y => y.1.beq x.1) xs.attach ys.attach
termination_by sizeOf xs + sizeOf ys
decreasing_by
  have hx := List.sizeOf_lt_of_mem x.2
  have hy := List.sizeOf_lt_of_mem y.2
  omega
end

instance : BEq Operation := ⟨Operation.beq⟩
instance : BEq Moment := ⟨fun a b => operationsBeq a.operations b.operations⟩
instance : BEq Circuit := ⟨fun a b => momentsBeq a.moments b.moments⟩

namespace Moment

/-- The qubits of all operations, in the order of the operations. -/
def qubits (m : Moment) : List Qubit :=
  m.operations.flatMap fun
    | .act _ qs => qs
    | .subcircuit _ _ qs => qs

end Moment

namespace Circuit

/-- All qubits of the circuit in increasing order. -/
def qubits (c : Circuit) : List Qubit := Qubit.sorted (c.moments.flatMap Moment.qubits)

def operations (c : Circuit) : List Operation := c.moments.flatMap Moment.operations

def numMoments (c : Circuit) : Nat := c.moments.length

def numOperations (c : Circuit) : Nat := c.operations.length

def isEmpty (c : Circuit) : Bool := c.moments.isEmpty

end Circuit

namespace Operation

def qubits : Operation → List Qubit
  | act _ qs => qs
  | subcircuit _ _ qs => qs

def name : Operation → String
  | act a _ => a.name
  | subcircuit .. => "subcircuit"

def actsOn (op : Operation) (q : Qubit) : Bool := op.qubits.contains q

/-- Whether the order of the operands has no meaning. -/
def isSymmetric : Operation → Bool
  | act a _ => a.isSymmetric
  | subcircuit .. => false

/-- Refuses an operand list in which a qubit repeats. -/
def checkDistinct (qs : List Qubit) (name : String) : Except BuildError Unit :=
  match Qubit.firstRepeat? [] qs with
  | some q => .error (.duplicateQubit q name)
  | none => .ok ()

/-- A gate on as many qubits as it needs, all different. -/
def ofGate (g : Gate) (qs : List Qubit) : Except BuildError Operation := do
  if UInt32.ofNat qs.length ≠ g.arity then
    throw (.qubitCountMismatch g.name g.arity (.ofNat qs.length))
  checkDistinct qs g.name
  return .act (.gate g) qs

/-- A measurement of one or more qubits, all different. -/
def ofMeasure (qs : List Qubit) : Except BuildError Operation := do
  if qs.isEmpty then throw (.noQubits "measure")
  checkDistinct qs "measure"
  return .act .measure qs

def ofDelay (q : Qubit) (nanoseconds : UInt64) : Operation := .act (.delay nanoseconds) [q]

def ofNoise (channel : NoiseChannel) (qs : List Qubit) : Except BuildError Operation := do
  if qs.isEmpty then throw (.noQubits channel.name)
  checkDistinct qs channel.name
  return .act (.noise channel) qs

/-- A marker; it may have no qubits. -/
def ofMarker (a : Marker) (qs : List Qubit) : Operation := .act (.marker a) qs

def ofDecoupling (d : Decoupling) (q : Qubit) : Operation := .act (.decoupling d) [q]

/-- A circuit repeated on all of its qubits. -/
def ofCircuit (c : Circuit) (repetitions : UInt32) : Operation :=
  .subcircuit c repetitions c.qubits

def single (g : StandardGate) (q : Qubit) : Operation := .act (.gate (.standard g)) [q]

def x (q : Qubit) : Operation := single .x q

def y (q : Qubit) : Operation := single .y q

def rx (a : Angle) (q : Qubit) : Operation := single (.rx a) q

def ry (a : Angle) (q : Qubit) : Operation := single (.ry a) q

def cz (a b : Qubit) : Except BuildError Operation := ofGate (.standard .cz) [a, b]

end Operation
end PulseScript
