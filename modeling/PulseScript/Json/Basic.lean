import PulseScript.Binary64.Basic

/-!
JSON values. Integers and other numbers are kept apart, members keep their order and
may repeat, and a text that is grammatical but has no value stands as `unreadable`:
it does no harm where nothing looks at it.

Where the format leaves a choice, reading and writing follow one reader and one writer. An integer
of 64 bits, signed or not, is read as it stands. Any other number is read by as many of its leading
digits as fit 64 bits, rounded and then scaled by a rounded power of ten, and one beyond the largest
finite number has no value (`Binary64.scaled`). Up to 127 containers may be nested
(`Json.nestingLimit`). A number is written with the shortest digits that have it as their nearest
number, with an exponent below `1e-5` and from `1e16` on (`Binary64.jsonChars`). The reader rounds
more than once, so some numbers are written with digits that are read as another number. Statements
about reading back have to exclude these, or assume that the numbers at hand are none of them.
-/
namespace PulseScript

/-- A JSON value. `unreadable` is a string with an unpaired surrogate, a number beyond
the largest of the format, or a container nested too deep. -/
inductive Json where
  | null
  | bool (value : Bool)
  | int (value : Int)
  | float (value : Binary64)
  | string (text : String)
  | array (items : List Json)
  | object (members : List (String × Json))
  | unreadable
  deriving Repr

namespace Json

/-- A member per name, with the value that was given last. -/
def lastMembers : List (String × Json) → List (String × Json)
  | [] => []
  | m :: ms => if ms.any (·.1 == m.1) then lastMembers ms else m :: lastMembers ms

mutual
def withoutRepeats : Json → Json
  | .array items => .array (withoutRepeatsItems items)
  | .object members => .object (lastMembers (withoutRepeatsMembers members))
  | v => v

def withoutRepeatsItems : List Json → List Json
  | [] => []
  | v :: vs => withoutRepeats v :: withoutRepeatsItems vs

def withoutRepeatsMembers : List (String × Json) → List (String × Json)
  | [] => []
  | (k, v) :: ms => (k, withoutRepeats v) :: withoutRepeatsMembers ms
end

mutual
def depth : Json → Nat
  | .array items => depthItems items + 1
  | .object members => depthMembers members + 1
  | _ => 0

def depthItems : List Json → Nat
  | [] => 0
  | v :: vs => max (depth v) (depthItems vs)

def depthMembers : List (String × Json) → Nat
  | [] => 0
  | (_, v) :: ms => max (depth v) (depthMembers ms)
end

end Json
end PulseScript
