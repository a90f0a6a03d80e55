import PulseScript.Mnemonic

/-!
A script as a list of statements. What a statement says about the circuit is not looked
at here: labels and coupler names stand as they were written.
-/
namespace PulseScript

structure ContextBlock where
  gate : String
  targets : String
  body : List String
  deriving DecidableEq, Repr

inductive Statement where
  | gate (mnemonic : Mnemonic) (qubit : String)
  | coupled (mnemonic : Mnemonic) (coupler : String)
  | measure (qubits : List String)
  | barrier (agents : List String)
  | idle (qubit : String) (nanoseconds : UInt64)
  | comment (text : String)
  | ignored (text : String)
  | context (block : ContextBlock)
  deriving DecidableEq, Repr

structure ProgramLine where
  number : Nat
  statement : Statement
  deriving DecidableEq, Repr

structure Program where
  lines : List ProgramLine
  deriving DecidableEq, Repr

namespace Statement

def isCoupled : Statement → Bool
  | coupled .. => true
  | _ => false

def isBarrier : Statement → Bool
  | barrier _ => true
  | _ => false

end Statement

namespace Program

def usesCouplers (p : Program) : Bool := p.lines.any (·.statement.isCoupled)

def numBarriers (p : Program) : Nat := p.lines.countP (·.statement.isBarrier)

end Program
end PulseScript
