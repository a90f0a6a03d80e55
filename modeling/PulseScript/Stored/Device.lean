import PulseScript.Device
import PulseScript.Json.Reader
import PulseScript.Json.Shape
import PulseScript.Stored.Gate
import PulseScript.Yaml.Reader

/-!
Device descriptions as JSON and YAML. Every field may be missing and is empty then; a name
that is entered twice keeps what was entered last. Loading a file is defined for any two readers of
such texts, so what is said about it does not depend on how much of the two formats is read; the
readers used here are `Device.readers`.
-/
namespace PulseScript

namespace CouplerRegistry

def toJson (r : CouplerRegistry) : Json :=
  .object (r.toList.map fun c => (c.1, .array [.string c.2.1, .string c.2.2]))

def labelsOfJson? : Json → Option (String × String)
  | .array [.string a, .string b] => some (a, b)
  | _ => none

def ofJson? (v : Json) : Option CouplerRegistry :=
  (v.pairsOf? labelsOfJson?).map fun pairs => .ofPairs (.ofList pairs)

end CouplerRegistry

namespace IgnoreRule

def toJson : IgnoreRule → Json
  | allNoise => .string "AllNoise"
  | noise name => .tag "Noise" (.string name)
  | allMarkers => .string "AllAnnotations"
  | marker name => .tag "Annotation" (.string name)
  | gate g => .tag "Gate" g.toJson
  | gateName name => .tag "GateName" (.string name)
  | custom name => .tag "Custom" (.string name)

def ofJson? (v : Json) : Option IgnoreRule :=
  match v.tagged? with
  | some ("AllNoise", content) => if Json.isBare content then some .allNoise else none
  | some ("AllAnnotations", content) => if Json.isBare content then some .allMarkers else none
  | some ("Noise", some (.string name)) => some (.noise name)
  | some ("Annotation", some (.string name)) => some (.marker name)
  | some ("Gate", some g) => (StandardGate.ofJson? g).map .gate
  | some ("GateName", some (.string name)) => some (.gateName name)
  | some ("Custom", some (.string name)) => some (.custom name)
  | _ => none

end IgnoreRule

namespace Device

def fieldNames : List String :=
  ["qubits", "blockable_agents", "couplers", "ignored_prefixes", "ignored_gates"]

def toJson (d : Device) : Json :=
  .object [("qubits", .object (d.qubits.toList.map fun e => (e.1, .ofWord32 e.2))),
    ("blockable_agents", .array (d.agents.map .string)),
    ("couplers", d.couplers.toJson),
    ("ignored_prefixes", .array (d.ignoredStarts.map .string)),
    ("ignored_gates", .array (d.ignoredGates.map .string))]

/-- A field that is read if it is there, and has its default if it is not. -/
def fieldOr (default : α) (read : β → Option α) : Option β → Option α
  | none => some default
  | some v => read v

def ofJson? (v : Json) : Option Device :=
  match v.optionalFields? fieldNames with
  | some [qubits, agents, couplers, starts, gates] => do
    let strings := fieldOr [] (Json.listOf? Json.string?)
    return {
      qubits := .ofList (← fieldOr [] (Json.pairsOf? Json.word32?) qubits)
      agents := ← strings agents
      couplers := ← fieldOr .empty CouplerRegistry.ofJson? couplers
      ignoredStarts := ← strings starts
      ignoredGates := ← strings gates }
  | _ => none

end Device

namespace Yaml

/-- The text of a scalar of any style. -/
def text? : Yaml → Option String
  | .scalar text _ => some text
  | _ => none

/-- The items of a list; where nothing is written the list is empty. -/
def items? : Yaml → Option (List Yaml)
  | .list items => some items
  | .scalar "" true => some []
  | _ => none

/-- The entries of a map whose keys are scalars; where nothing is written it is empty. -/
def entries? : Yaml → Option (List (String × Yaml))
  | .map entries => entries.mapM fun e => (text? e.1).map fun key => (key, e.2)
  | .scalar "" true => some []
  | _ => none

/-- The number that digits in a base denote. -/
def digitsIn? (base : Nat) (cs : List Char) : Option Nat :=
  if cs.isEmpty then none
  else cs.foldlM (fun n c =>
    (Json.hexDigit? c).bind fun d => if d < base then some (n * base + d) else none) 0

/-- A natural number as a plain scalar: decimal without leading zeros, or with a prefix for
base 16, 8 or 2; a plus sign may stand before it. -/
def naturalText? (s : String) : Option Nat :=
  let cs := match s.toList with
    | '+' :: cs => cs
    | cs => cs
  let based := match cs with
    | '0' :: 'x' :: ds => digitsIn? 16 ds
    | '0' :: 'o' :: ds => digitsIn? 8 ds
    | '0' :: 'b' :: ds => digitsIn? 2 ds
    | _ => none
  match based with
  | some n => some n
  | none => if cs.length > 1 && cs.head? == some '0' then none else natOfDigits? cs

def word32? : Yaml → Option UInt32
  | .scalar text true =>
    (naturalText? text).bind fun n => if n < UInt32.size then some (UInt32.ofNat n) else none
  | _ => none

def strings? (v : Yaml) : Option (List String) := v.items?.bind fun items => items.mapM text?

def labels? (v : Yaml) : Option (String × String) :=
  match v.strings? with
  | some [a, b] => some (a, b)
  | _ => none

def pairsOf? (value? : Yaml → Option α) (v : Yaml) : Option (List (String × α)) :=
  v.entries?.bind fun entries => entries.mapM fun e => (value? e.2).map fun x => (e.1, x)

/-- The value of a field: missing, or entered once. -/
def field? (name : String) (entries : List (String × Yaml)) : Option (Option Yaml) :=
  match entries.filter (·.1 == name) with
  | [] => some none
  | [e] => some (some e.2)
  | _ => none

end Yaml

namespace Device

def ofYaml? (v : Yaml) : Option Device := do
  let entries ← v.entries?
  let qubits ← Yaml.field? "qubits" entries
  let agents ← Yaml.field? "blockable_agents" entries
  let couplers ← Yaml.field? "couplers" entries
  let starts ← Yaml.field? "ignored_prefixes" entries
  let gates ← Yaml.field? "ignored_gates" entries
  return {
    qubits := .ofList (← fieldOr [] (Yaml.pairsOf? Yaml.word32?) qubits)
    agents := ← fieldOr [] Yaml.strings? agents
    couplers := .ofPairs (.ofList (← fieldOr [] (Yaml.pairsOf? Yaml.labels?) couplers))
    ignoredStarts := ← fieldOr [] Yaml.strings? starts
    ignoredGates := ← fieldOr [] Yaml.strings? gates }

/-- Whether a file of this name holds JSON: what follows the last dot is `json`, and
something stands before that dot. -/
def isJsonName (name : String) : Bool :=
  match name.toList.reverse with
  | 'n' :: 'o' :: 's' :: 'j' :: '.' :: c :: _ => c != '/'
  | _ => false

structure Readers where
  json : String → Option Device
  yaml : String → Option Device

namespace Readers

variable (r : Readers)

/-- Text is JSON or YAML by the name of its file. -/
def ofText? (name text : String) : Option Device :=
  if isJsonName name then r.json text else r.yaml text

/-- The description in a file, given its name and content, before it is checked. -/
def stored? (name : String) (content : Option ByteArray) : Option Device :=
  (content.bind String.fromUTF8?).bind (r.ofText? name)

def checkRead : Option Device → Except DeviceError Device
  | some d => d.checked
  | none => .error .unparsable

/-- The checked description in a file; a file that is not there has no content. -/
def ofFile (name : String) (content : Option ByteArray) : Except DeviceError Device :=
  match content.bind String.fromUTF8? with
  | none => .error .unreadable
  | some text => checkRead (r.ofText? name text)

def load (name : String) (content : Option ByteArray) (o : Overrides) :
    Except DeviceError Device :=
  match r.ofFile name content with
  | .error e => .error e
  | .ok d => (d.override o).checked

end Readers

/-- Reading by `Json.ofText?` and `Yaml.ofText?`. An empty YAML text describes an empty device. -/
def readers : Readers where
  json s := (Json.ofText? s).bind ofJson?
  yaml s := (Yaml.ofText? s).bind fun v => ofYaml? (v.getD .nothing)

def ofJsonText (s : String) : Except DeviceError Device := Readers.checkRead (readers.json s)

def ofYamlText (s : String) : Except DeviceError Device := Readers.checkRead (readers.yaml s)

def ofFile (name : String) (content : Option ByteArray) : Except DeviceError Device :=
  readers.ofFile name content

def load (name : String) (content : Option ByteArray) (o : Overrides) :
    Except DeviceError Device :=
  readers.load name content o

end Device
end PulseScript
