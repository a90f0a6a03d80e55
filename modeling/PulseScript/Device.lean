import PulseScript.Layout
import PulseScript.Script.Assembly
import PulseScript.Script.Emission

/-!
Device descriptions: all that both directions need to know about a device. A description
can be inconsistent; what is checked, and in which order, stands in `Device.fault?`.
-/
namespace PulseScript

structure Device where
  qubits : Std.ExtTreeMap String UInt32
  agents : List String
  couplers : CouplerRegistry
  ignoredStarts : List String
  ignoredGates : List String
  deriving DecidableEq

inductive DeviceFault where
  | noAgents
  | sharedIndex (index : UInt32) (label : String)
  | selfCoupler (name label : String)
  | unknownLabel (name label : String)
  | barrierStart (start : String)
  deriving DecidableEq, Repr

def DeviceFault.message : DeviceFault → String
  | noAgents => "blockable_agents must not be empty"
  | sharedIndex index label =>
    "Qubit index " ++ natText index.toNat ++ " is assigned to more than one label (including " ++
      label ++ ")"
  | selfCoupler name label => "Coupler " ++ name ++ " joins " ++ label ++ " to itself"
  | unknownLabel name label =>
    "Coupler " ++ name ++ " references unknown qubit label " ++ label
  | barrierStart start => (ScriptError.barrierStart start).message

/-- Why there is no description: its file cannot be read, its text is no description, or
the description has a fault. -/
inductive DeviceError where
  | unreadable
  | unparsable
  | invalid (fault : DeviceFault)
  deriving DecidableEq, Repr

/-- The message on a fault. The other causes are described by whoever reads the file. -/
def DeviceError.message? : DeviceError → Option String
  | unreadable => none
  | unparsable => none
  | invalid fault => some ("Validation error: " ++ fault.message)

structure Overrides where
  agents : Option String
  ignoredStarts : Option String
  deriving DecidableEq, Repr

namespace Device

def empty : Device := ⟨∅, [], .empty, [], []⟩

/-- The first label whose index stands earlier in the list, or in `seen`. -/
def sharedIndex? (seen : List UInt32) : List (String × UInt32) → Option DeviceFault
  | [] => none
  | (label, index) :: rest =>
    if index ∈ seen then some (.sharedIndex index label) else sharedIndex? (index :: seen) rest

def couplerFault? (d : Device) (name a b : String) : Option DeviceFault :=
  if a = b then some (.selfCoupler name a)
  else if !d.qubits.contains a then some (.unknownLabel name a)
  else if !d.qubits.contains b then some (.unknownLabel name b)
  else none

/-- The first fault: missing agents, then indexes by label, then couplers by name, then line
starts. -/
def fault? (d : Device) : Option DeviceFault :=
  if d.agents.isEmpty then some .noAgents
  else
    (sharedIndex? [] d.qubits.toList).or <|
    (d.couplers.toList.findSome? fun c => d.couplerFault? c.1 c.2.1 c.2.2).or <|
    (LineFilter.barrierStart? d.ignoredStarts).map .barrierStart

def checked (d : Device) : Except DeviceError Device :=
  match d.fault? with
  | some fault => .error (.invalid fault)
  | none => .ok d

def layout (d : Device) : LabelLayout :=
  .ofList (d.qubits.toList.map fun e => (⟨e.2⟩, e.1))

/-- The standard rules and one for each ignored gate name. -/
def policy (d : Device) : IgnorePolicy := .withRules (d.ignoredGates.map .gateName)

/-- The filter of the ignored line starts. -/
def lineFilter (d : Device) : Except ScriptError LineFilter :=
  (LineFilter.make d.ignoredStarts).mapError .barrierStart

/-- The couplers; a device without any has no registry. -/
def registry? (d : Device) : Option CouplerRegistry :=
  if d.couplers.isEmpty then none else some d.couplers

def compile (d : Device) (c : Circuit) : Except ScriptError String :=
  c.toScript ⟨d.layout.labelOf?, d.agents, d.registry?, d.policy⟩

def parse (d : Device) (source : String) : Except ScriptError Circuit := do
  let filter ← d.lineFilter
  Circuit.ofScript ⟨d.layout.qubitOf?, d.registry?⟩ (some filter) source

/-- The description with the lists of the overrides that are given. -/
def override (d : Device) (o : Overrides) : Device :=
  let d := match o.agents with
    | some text => { d with agents := blankWords text }
    | none => d
  match o.ignoredStarts with
  | some text => { d with ignoredStarts := blankWords text }
  | none => d

end Device
end PulseScript
