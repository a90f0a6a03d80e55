import PulseScript.Decoupling
import PulseScript.Qubit

/-!
Why an operation or a moment cannot be built.
-/
namespace PulseScript

inductive BuildError where
  | duplicateQubit (qubit : Qubit) (operation : String)
  | qubitCountMismatch (gate : String) (expected got : UInt32)
  | noQubits (operation : String)
  | invalidDecoupling (cause : DecouplingError)
  deriving DecidableEq, Repr

def BuildError.message : BuildError → String
  | duplicateQubit qubit operation =>
    "Duplicate qubit " ++ qubit.text ++ " in moment (operation: " ++ operation ++ ")"
  | qubitCountMismatch gate expected got =>
    "Gate '" ++ gate ++ "' requires " ++ natText expected.toNat ++ " qubits, got " ++
      natText got.toNat
  | noQubits operation => "Operation '" ++ operation ++ "' requires at least one qubit"
  | invalidDecoupling cause => "Invalid dynamical decoupling: " ++ cause.message

end PulseScript
