import PulseScript.Operation

/-!
The instruction table. Each action has at most one instruction, and each instruction
that is a gate has one gate it is read back as. Rotations are matched to the pulses of
the hardware by their wrapped angle, up to a small tolerance.
-/
namespace PulseScript

inductive Mnemonic where
  | x | y | x2p | x2m | y2p | y2m | cz | measure | barrier | idle
  deriving DecidableEq, Repr

inductive OperandShape where
  | qubit
  | coupler
  | qubits
  | agents
  | qubitDuration
  deriving DecidableEq, Repr

namespace Mnemonic

def all : List Mnemonic := [x, y, x2p, x2m, y2p, y2m, cz, measure, barrier, idle]

def text : Mnemonic → String
  | x => "X"
  | y => "Y"
  | x2p => "X2P"
  | x2m => "X2M"
  | y2p => "Y2P"
  | y2m => "Y2M"
  | cz => "CZ"
  | measure => "M"
  | barrier => "B"
  | idle => "I"

def operands : Mnemonic → OperandShape
  | cz => .coupler
  | measure => .qubits
  | barrier => .agents
  | idle => .qubitDuration
  | _ => .qubit

/-- The gate that the instruction is read as. -/
def gate? : Mnemonic → Option StandardGate
  | x => some .x
  | y => some .y
  | x2p => some (.rx (.constant Binary64.quarterTurn))
  | x2m => some (.rx (.constant (-Binary64.quarterTurn)))
  | y2p => some (.ry (.constant Binary64.quarterTurn))
  | y2m => some (.ry (.constant (-Binary64.quarterTurn)))
  | cz => some .cz
  | measure => none
  | barrier => none
  | idle => none

def ofText? (word : String) : Option Mnemonic := all.find? (·.text == word)

end Mnemonic

/-- What an action becomes: an instruction, or nothing because it changes nothing. -/
inductive Resolution where
  | instruction (mnemonic : Mnemonic)
  | identity
  deriving DecidableEq, Repr

/-- How far an angle may lie from the angle of a pulse; the nearest number to `1e-10`. -/
def angleTolerance : Binary64 := .finite false 7737125245533627 (-86) (by decide)

def anglesClose (a b : Binary64) : Bool := (a - b).abs.lt angleTolerance

/-- The pulse for a rotation about one axis, given the pulses of half a turn and of a
quarter turn in either direction. -/
def resolveRotation (a : Angle) (half quarter back : Mnemonic) : Option Resolution :=
  match a.wrapped? with
  | none => none
  | some r =>
    if anglesClose r (Binary64.zero false) then some .identity
    else if anglesClose r.abs Binary64.pi then some (.instruction half)
    else if anglesClose r Binary64.quarterTurn then some (.instruction quarter)
    else if anglesClose r (-Binary64.quarterTurn) then some (.instruction back)
    else none

/-- What a standard gate becomes, if the hardware has a pulse for it. -/
def StandardGate.resolve? : StandardGate → Option Resolution
  | .identity => some .identity
  | .x => some (.instruction .x)
  | .y => some (.instruction .y)
  | .sqrtX => some (.instruction .x2p)
  | .sqrtXDagger => some (.instruction .x2m)
  | .cz => some (.instruction .cz)
  | .rx a => resolveRotation a .x .x2p .x2m
  | .ry a => resolveRotation a .y .y2p .y2m
  | .rz a =>
    match a.wrapped? with
    | none => none
    | some r => if anglesClose r (Binary64.zero false) then some .identity else none
  | _ => none

/-- What an action becomes. Noise, markers and decoupling have no instruction of
their own. -/
def Action.resolve? : Action → Option Resolution
  | .gate (.standard g) => g.resolve?
  | .measure => some (.instruction .measure)
  | .delay _ => some (.instruction .idle)
  | _ => none

/-- What an operation becomes; a circuit within has no single instruction. -/
def Operation.resolve? : Operation → Option Resolution
  | .act a _ => a.resolve?
  | .subcircuit .. => none

end PulseScript
