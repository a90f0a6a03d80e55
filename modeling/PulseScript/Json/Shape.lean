import PulseScript.Json.Basic
import PulseScript.Binary64.Rounding

/-!
Shapes that stored values take in JSON: records, tagged alternatives, and numbers of a
given kind. A record is an object with the fields by name, or an array with the fields
in order.
-/
namespace PulseScript
namespace Json

def valuesOf (name : String) (members : List (String × Json)) : List Json :=
  (members.filter (·.1 == name)).map (·.2)

/-- The fields of a record, each of which may be missing. Names that are no field are
passed over, a repeated field is refused, and an array may end early. -/
def optionalFields? (names : List String) : Json → Option (List (Option Json))
  | .object members =>
    names.mapM fun name =>
      match valuesOf name members with
      | [] => some none
      | [v] => some (some v)
      | _ => none
  | .array items =>
    if items.length ≤ names.length then
      some (items.map some ++ List.replicate (names.length - items.length) none)
    else none
  | _ => none

def fields? (names : List String) (v : Json) : Option (List Json) :=
  (optionalFields? names v).bind fun fields => fields.mapM id

/-- How the record that a tag carries may be written: in every text the names may be left
out, but a value that is handed over as a tree names its fields. -/
inductive RecordForm where
  | named | namedOrOrdered
  deriving DecidableEq, Repr

def taggedFields? (form : RecordForm) (names : List String) (v : Json) : Option (List Json) :=
  match form, v with
  | .named, .array _ => none
  | _, v => fields? names v

/-- A tag with what it carries: a bare string carries nothing. -/
def tagged? : Json → Option (String × Option Json)
  | .string tag => some (tag, none)
  | .object [(tag, v)] => some (tag, some v)
  | _ => none

/-- A tag that carries nothing may also carry `null`. -/
def isBare : Option Json → Bool
  | none => true
  | some .null => true
  | _ => false

def string? : Json → Option String
  | .string s => some s
  | _ => none

def items? : Json → Option (List Json)
  | .array items => some items
  | _ => none

def listOf? (item? : Json → Option α) (v : Json) : Option (List α) :=
  v.items?.bind fun items => items.mapM item?

def pairsOf? (value? : Json → Option α) : Json → Option (List (String × α))
  | .object members => members.mapM fun m => (value? m.2).map fun v => (m.1, v)
  | _ => none

def word32? : Json → Option UInt32
  | .int n => if 0 ≤ n ∧ n < UInt32.size then some (UInt32.ofNat n.toNat) else none
  | _ => none

def word64? : Json → Option UInt64
  | .int n => if 0 ≤ n ∧ n < UInt64.size then some (UInt64.ofNat n.toNat) else none
  | _ => none

def number64? : Json → Option Binary64
  | .int n => some (Binary64.ofInt n)
  | .float x => some x
  | _ => none

def tag (name : String) (v : Json) : Json := .object [(name, v)]

def ofWord32 (n : UInt32) : Json := .int n.toNat

def ofWord64 (n : UInt64) : Json := .int n.toNat

end Json
end PulseScript
