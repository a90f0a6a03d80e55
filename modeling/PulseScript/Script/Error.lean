import PulseScript.BuildError

/-!
Why a circuit has no script, or a script no circuit.
-/
namespace PulseScript

inductive ContextHeader where
  | gate | targets
  deriving DecidableEq, Repr

/-- The text that a header line starts with, up to its content. -/
def ContextHeader.label : ContextHeader → String
  | gate => "# Gate:"
  | targets => "# Targets:"

inductive MalformedReason where
  | expectedQubit
  | expectedCoupler
  | expectedQubits
  | expectedAgents
  | expectedQubitDuration
  | badDuration
  | noGateForm
  deriving DecidableEq, Repr

def MalformedReason.message : MalformedReason → String
  | expectedQubit => "expected one qubit label"
  | expectedCoupler => "expected one coupler name"
  | expectedQubits => "expected at least one qubit label"
  | expectedAgents => "expected at least one blockable agent"
  | expectedQubitDuration => "expected a qubit label and a duration"
  | badDuration => "duration must be a non-negative integer"
  | noGateForm => "mnemonic has no gate form"

inductive ContextFault where
  | nested
  | missingHeader (header : ContextHeader)
  | unreadableGate
  | invalidGate (cause : BuildError)
  | unreadableTargets
  | targetCount (family : String) (count : Nat)
  deriving DecidableEq, Repr

def ContextFault.message : ContextFault → String
  | nested => "context blocks cannot be nested"
  | missingHeader header => "missing '" ++ header.label ++ "' header"
  | unreadableGate => "unreadable gate header"
  | invalidGate cause => cause.message
  | unreadableTargets => "unreadable targets header"
  | targetCount family count =>
    family ++ " acts on one qubit, got " ++ natText count ++ " targets"

inductive CouplerQuery where
  | pair (a b : String)
  | named (name : String)
  deriving DecidableEq, Repr

def CouplerQuery.text : CouplerQuery → String
  | pair a b => "pair (" ++ a ++ ", " ++ b ++ ")"
  | named name => "'" ++ name ++ "'"

inductive ScriptError where
  | unsupported (operation : String) (qubits : List Qubit)
  | unknownMnemonic (line : Nat) (word : String)
  | missingCouplers
  | missingCoupler (query : CouplerQuery)
  | unmappedLabel (label : String) (line : Nat)
  | unmappedQubit (qubit : Qubit)
  | malformed (line : Nat) (instruction : String) (reason : MalformedReason)
  | noAgents
  | barrierStart (start : String)
  | unterminatedContext (line : Nat)
  | invalidContext (line : Nat) (fault : ContextFault)
  | build (cause : BuildError)
  deriving DecidableEq, Repr

def qubitsText (qs : List Qubit) : String :=
  "[" ++ ", ".intercalate (qs.map fun q => "QubitId(" ++ natText q.index.toNat ++ ")") ++ "]"

def ScriptError.message : ScriptError → String
  | unsupported operation qubits =>
    "Cannot translate '" ++ operation ++ "' on " ++ qubitsText qubits ++
      " to QCIS; add an ignore rule to drop it"
  | unknownMnemonic line word =>
    "Unknown QCIS instruction '" ++ word ++ "' at line " ++ natText line
  | missingCouplers => "A coupler registry is required to translate two-qubit operations"
  | missingCoupler query => "No coupler registered for " ++ query.text
  | unmappedLabel label line =>
    "Label '" ++ label ++ "' at line " ++ natText line ++ " does not map to a qubit"
  | unmappedQubit qubit => "Qubit " ++ qubit.text ++ " has no hardware label"
  | malformed line instruction reason =>
    "Malformed instruction at line " ++ natText line ++ ": '" ++ instruction ++ "' (" ++
      reason.message ++ ")"
  | noAgents => "The blockable agent set must not be empty"
  | barrierStart start => "Ignore prefix '" ++ start ++ "' would match barrier instructions"
  | unterminatedContext line =>
    "Context block opened at line " ++ natText line ++ " is never closed"
  | invalidContext line fault =>
    "Invalid context block at line " ++ natText line ++ ": " ++ fault.message
  | build cause => "Circuit error: " ++ cause.message

end PulseScript
