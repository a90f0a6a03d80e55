import PulseScript.Json.Reader
import PulseScript.Stored.Gate
import PulseScript.Stored.Noise
import PulseScript.Stored.Decoupling
import PulseScript.Operation

/-!
Operations, moments and circuits as JSON. Reading does not check operands: what has been
stored is taken as it is. Nested circuits are read by recursion on the depth of the value.
-/
namespace PulseScript

namespace Qubit

def toJson (q : Qubit) : Json := .ofWord32 q.index

def ofJson? (v : Json) : Option Qubit := v.word32?.map Qubit.mk

end Qubit

namespace Action

def toJson : Action → Json
  | gate g => .tag "Gate" g.toJson
  | measure => .string "Measure"
  | delay ns => .tag "Delay" (.object [("duration_ns", .ofWord64 ns)])
  | noise channel => .tag "NoiseChannel" channel.toJson
  | marker a => .tag "Annotation" a.toJson
  | decoupling d => .tag "Decoupling" d.toJson

def ofJson? (form : Json.RecordForm) (v : Json) : Option Action :=
  match v.tagged? with
  | some ("Gate", some g) => (Gate.ofJson? g).map .gate
  | some ("Measure", content) => if Json.isBare content then some .measure else none
  | some ("Delay", some r) =>
    match r.taggedFields? form ["duration_ns"] with
    | some [ns] => ns.word64?.map .delay
    | _ => none
  | some ("NoiseChannel", some channel) => (NoiseChannel.ofJson? form channel).map .noise
  | some ("Annotation", some a) => (Marker.ofJson? form a).map .marker
  | some ("Decoupling", some d) => (Decoupling.ofJson? form d).map .decoupling
  | _ => none

end Action

def operationRecord (kind : Json) (qs : List Qubit) : Json :=
  .object [("kind", kind), ("qubits", .array (qs.map Qubit.toJson))]

mutual
def Operation.toJson : Operation → Json
  | .act a qs => operationRecord a.toJson qs
  | .subcircuit ⟨ms⟩ n qs =>
    operationRecord (.tag "Subcircuit" (.object
      [("circuit", .object [("moments", .array (momentsToJson ms))]),
        ("repetitions", .ofWord32 n)])) qs

def momentsToJson : List Moment → List Json
  | [] => []
  | ⟨ops⟩ :: ms => .object [("operations", .array (operationsToJson ops))] :: momentsToJson ms

def operationsToJson : List Operation → List Json
  | [] => []
  | op :: ops => op.toJson :: operationsToJson ops
end

def Moment.toJson (m : Moment) : Json :=
  .object [("operations", .array (operationsToJson m.operations))]

def Circuit.toJson (c : Circuit) : Json :=
  .object [("moments", .array (momentsToJson c.moments))]

/-- An operation without its operands, given how nested circuits are read. -/
def Operation.kindWith? (form : Json.RecordForm) (circuit? : Json → Option Circuit) (v : Json) :
    Option (List Qubit → Operation) :=
  match v.tagged? with
  | some ("Subcircuit", some r) =>
    match r.taggedFields? form ["circuit", "repetitions"] with
    | some [c, n] => do
      let c ← circuit? c
      let n ← n.word32?
      return .subcircuit c n
    | _ => none
  | _ => (Action.ofJson? form v).map .act

/-- An operation, given how nested circuits are read. -/
def Operation.ofJsonWith? (form : Json.RecordForm) (circuit? : Json → Option Circuit) (v : Json) :
    Option Operation :=
  match v.fields? ["kind", "qubits"] with
  | some [kind, qs] => do
    let make ← Operation.kindWith? form circuit? kind
    return make (← qs.listOf? Qubit.ofJson?)
  | _ => none

def Moment.ofJsonWith? (form : Json.RecordForm) (circuit? : Json → Option Circuit) (v : Json) :
    Option Moment :=
  match v.fields? ["operations"] with
  | some [ops] => (ops.listOf? (Operation.ofJsonWith? form circuit?)).map Moment.mk
  | _ => none

/-- A circuit with at most so many circuits inside each other. -/
def Circuit.ofJsonWithin? (form : Json.RecordForm) : Nat → Json → Option Circuit
  | 0, _ => none
  | n + 1, v =>
    match v.fields? ["moments"] with
    | some [ms] =>
      (ms.listOf? (Moment.ofJsonWith? form (Circuit.ofJsonWithin? form n))).map Circuit.mk
    | _ => none

/-- A circuit. There are never more circuits inside each other than containers. -/
def Circuit.ofJson? (form : Json.RecordForm) (v : Json) : Option Circuit :=
  Circuit.ofJsonWithin? form v.depth v

def Operation.kindOfJson? (form : Json.RecordForm) (v : Json) :
    Option (List Qubit → Operation) :=
  Operation.kindWith? form (Circuit.ofJson? form) v

def Operation.ofJson? (form : Json.RecordForm) (v : Json) : Option Operation :=
  Operation.ofJsonWith? form (Circuit.ofJson? form) v

def Circuit.ofJsonText? (s : String) : Option Circuit :=
  (Json.ofText? s).bind (Circuit.ofJson? .namedOrOrdered)

end PulseScript
