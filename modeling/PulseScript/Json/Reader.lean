import PulseScript.Json.Token

/-!
Reading JSON text. The tokens drive a machine whose stack holds the containers that
are still open, so a value of any depth is read by one fold over its tokens. Nothing but space may
follow the value. What is inside a container is not limited otherwise: names may repeat, and it is
the reader of a record that refuses a repeated field.
-/
namespace PulseScript
namespace Json

/-- Containers nested deeper than this are read over, but have no value. -/
def nestingLimit : Nat := 127

/-- An open container with its contents so far, last one first. In an object stand also
whether all names up to here were text, and the name whose value comes next. -/
inductive Frame where
  | array (items : List Json)
  | object (members : List (String × Json)) (isText : Bool) (name : Option String)

/-- What may come next: a value, a value or the end of an empty array, a name or the end
of an empty object, a name, a colon; or what follows the value just completed. -/
inductive Expected where
  | value
  | firstItem
  | firstName
  | name
  | colon
  | after (value : Json)

structure Machine where
  expected : Expected
  stack : List Frame

namespace Machine

def start : Machine := ⟨.value, []⟩

/-- A container is complete; the containers around it decide whether it is too deep. -/
def close (stack : List Frame) (v : Json) : Machine :=
  ⟨.after (if stack.length < nestingLimit then v else .unreadable), stack⟩

def beginValue (stack : List Frame) : Token → Option Machine
  | .openArray => some ⟨.firstItem, .array [] :: stack⟩
  | .openObject => some ⟨.firstName, .object [] true none :: stack⟩
  | .scalar v => some ⟨.after v, stack⟩
  | .string (some s) => some ⟨.after (.string s), stack⟩
  | .string none => some ⟨.after .unreadable, stack⟩
  | _ => none

def beginMember (members : List (String × Json)) (isText : Bool) (stack : List Frame) :
    Token → Option Machine
  | .string name => some ⟨.colon, .object members isText name :: stack⟩
  | _ => none

/-- The members once the value of the current name is known. -/
def addMember (members : List (String × Json)) (name : Option String) (v : Json) :
    List (String × Json) :=
  match name with
  | some k => (k, v) :: members
  | none => members

/-- A complete object. With a name that is no text it cannot be read. -/
def closeObject (stack : List Frame) (members : List (String × Json)) (isText : Bool) : Machine :=
  close stack (if isText then .object members.reverse else .unreadable)

def step (m : Machine) (t : Token) : Option Machine :=
  match m.expected, m.stack with
  | .value, stack => beginValue stack t
  | .firstItem, .array items :: stack =>
    match t with
    | .closeArray => some (close stack (.array items.reverse))
    | _ => beginValue m.stack t
  | .firstName, .object members isText _ :: stack =>
    match t with
    | .closeObject => some (closeObject stack members isText)
    | _ => beginMember members isText stack t
  | .name, .object members isText _ :: stack => beginMember members isText stack t
  | .colon, stack =>
    match t with
    | .colon => some ⟨.value, stack⟩
    | _ => none
  | .after v, .array items :: stack =>
    match t with
    | .comma => some ⟨.value, .array (v :: items) :: stack⟩
    | .closeArray => some (close stack (.array (v :: items).reverse))
    | _ => none
  | .after v, .object members isText name :: stack =>
    let members := addMember members name v
    let isText := isText && name.isSome
    match t with
    | .comma => some ⟨.name, .object members isText none :: stack⟩
    | .closeObject => some (closeObject stack members isText)
    | _ => none
  | _, _ => none

def finish (m : Machine) : Option Json :=
  match m.expected, m.stack with
  | .after v, [] => some v
  | _, _ => none

end Machine

def ofTokens? (ts : List Token) : Option Json :=
  (ts.foldlM Machine.step .start).bind Machine.finish

/-- Reads JSON text, which may have space around the value and nothing else. -/
def ofText? (s : String) : Option Json :=
  (tokens? s.toList).bind ofTokens?

end Json
end PulseScript
