import PulseScript.Json.Shape
import PulseScript.Gate

/-!
Angles and gates as JSON. Each alternative is a tag with what it carries; reading checks
the shape and nothing else.
-/
namespace PulseScript

namespace Angle

def toJson : Angle → Json
  | constant x => .tag "Constant" (.float x)
  | symbol name => .tag "Symbol" (.string name)
  | pi => .string "Pi"
  | neg a => .tag "Neg" a.toJson
  | product a b => .tag "Mul" (.array [a.toJson, b.toJson])
  | quotient a b => .tag "Div" (.array [a.toJson, b.toJson])

def ofJson? : Json → Option Angle
  | .string "Pi" => some .pi
  | .object [("Pi", .null)] => some .pi
  | .object [("Constant", v)] => v.number64?.map .constant
  | .object [("Symbol", .string name)] => some (.symbol name)
  | .object [("Neg", a)] => (ofJson? a).map .neg
  | .object [("Mul", .array [a, b])] => do return .product (← ofJson? a) (← ofJson? b)
  | .object [("Div", .array [a, b])] => do return .quotient (← ofJson? a) (← ofJson? b)
  | _ => none
termination_by structural v => v

end Angle

namespace StandardGate

def toJson : StandardGate → Json
  | identity => .string "I"
  | x => .string "X"
  | y => .string "Y"
  | z => .string "Z"
  | hadamard => .string "H"
  | s => .string "S"
  | sDagger => .string "Sdg"
  | t => .string "T"
  | tDagger => .string "Tdg"
  | sqrtX => .string "SX"
  | sqrtXDagger => .string "SXdg"
  | rx a => .tag "Rx" a.toJson
  | ry a => .tag "Ry" a.toJson
  | rz a => .tag "Rz" a.toJson
  | cx => .string "CX"
  | cz => .string "CZ"
  | swap => .string "Swap"

def ofBareTag? : String → Option StandardGate
  | "I" => some .identity
  | "X" => some .x
  | "Y" => some .y
  | "Z" => some .z
  | "H" => some .hadamard
  | "S" => some .s
  | "Sdg" => some .sDagger
  | "T" => some .t
  | "Tdg" => some .tDagger
  | "SX" => some .sqrtX
  | "SXdg" => some .sqrtXDagger
  | "CX" => some .cx
  | "CZ" => some .cz
  | "Swap" => some .swap
  | _ => none

def ofJson? (v : Json) : Option StandardGate :=
  match v.tagged? with
  | some ("Rx", some a) => (Angle.ofJson? a).map .rx
  | some ("Ry", some a) => (Angle.ofJson? a).map .ry
  | some ("Rz", some a) => (Angle.ofJson? a).map .rz
  | some (tag, content) => if Json.isBare content then ofBareTag? tag else none
  | none => none

end StandardGate

namespace CustomGate

def toJson (g : CustomGate) : Json :=
  .object [("name", .string g.name), ("num_qubits", .ofWord32 g.arity),
    ("params", .array (g.params.map Angle.toJson))]

def ofJson? (v : Json) : Option CustomGate :=
  match v.fields? ["name", "num_qubits", "params"] with
  | some [name, arity, params] => do
    return ⟨← name.string?, ← arity.word32?, ← params.listOf? Angle.ofJson?⟩
  | _ => none

end CustomGate

namespace Gate

def toJson : Gate → Json
  | standard g => .tag "Standard" g.toJson
  | custom g => .tag "Custom" g.toJson

def ofJson? (v : Json) : Option Gate :=
  match v.tagged? with
  | some ("Standard", some g) => (StandardGate.ofJson? g).map .standard
  | some ("Custom", some g) => (CustomGate.ofJson? g).map .custom
  | _ => none

end Gate
end PulseScript
