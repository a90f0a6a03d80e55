import PulseScript.Json.Number

/-!
The tokens of JSON text: brackets, separators, words, numbers and strings. The scanner
is a step function on characters, so the tokens of a text are one fold over it.
-/
namespace PulseScript
namespace Json

/-- A token. A string whose escapes name no text is a token without one. -/
inductive Token where
  | openArray | closeArray | openObject | closeObject | comma | colon
  | scalar (value : Json)
  | string (text : Option String)
  deriving Repr

def isSpace (c : Char) : Bool := c == ' ' || c == '\n' || c == '\t' || c == '\r'

def hexDigit? (c : Char) : Option Nat :=
  if '0' ≤ c ∧ c ≤ '9' then some (c.toNat - 48)
  else if 'a' ≤ c ∧ c ≤ 'f' then some (c.toNat - 87)
  else if 'A' ≤ c ∧ c ≤ 'F' then some (c.toNat - 55)
  else none

def hexUnit? (a b c d : Char) : Option Nat := do
  let a ← hexDigit? a
  let b ← hexDigit? b
  let c ← hexDigit? c
  let d ← hexDigit? d
  return ((a * 16 + b) * 16 + c) * 16 + d

def escaped? : Char → Option Char
  | '"' => some '"'
  | '\\' => some '\\'
  | '/' => some '/'
  | 'b' => some '\x08'
  | 'f' => some '\x0c'
  | 'n' => some '\n'
  | 'r' => some '\r'
  | 't' => some '\t'
  | _ => none

/-- A string being read: its text so far, last character first, the first half of a
surrogate pair that waits for the second, and whether all was text up to here. -/
structure Draft where
  text : List Char
  half : Option Nat
  isText : Bool

namespace Draft

def start : Draft := ⟨[], none, true⟩

/-- One more character. It leaves a waiting half alone for good. -/
def add (d : Draft) (c : Char) : Draft := ⟨c :: d.text, none, d.isText && d.half.isNone⟩

def addUnit (d : Draft) (unit : Nat) : Draft :=
  match d.half with
  | some high =>
    if 0xDC00 ≤ unit ∧ unit ≤ 0xDFFF then
      ⟨Char.ofNat (0x10000 + (high - 0xD800) * 0x400 + (unit - 0xDC00)) :: d.text, none, d.isText⟩
    else { d with half := none, isText := false }
  | none =>
    if 0xD800 ≤ unit ∧ unit ≤ 0xDBFF then { d with half := some unit }
    else if 0xDC00 ≤ unit ∧ unit ≤ 0xDFFF then { d with isText := false }
    else d.add (Char.ofNat unit)

def finish (d : Draft) : Option String :=
  if d.isText && d.half.isNone then some (String.ofList d.text.reverse) else none

end Draft

/-- Where the scanner stands: between tokens, in a word or number whose characters so far
are given in reverse, in a string, behind a backslash in it, or among the hexadecimal
digits of an escape. -/
inductive Mode where
  | between
  | word (seen : List Char)
  | string (draft : Draft)
  | escape (draft : Draft)
  | unit (draft : Draft) (seen : List Char)

/-- The characters that are a token by themselves. -/
def mark? : Char → Option Token
  | '[' => some .openArray
  | ']' => some .closeArray
  | '\x7b' => some .openObject
  | '\x7d' => some .closeObject
  | ',' => some .comma
  | ':' => some .colon
  | _ => none

/-- A word is one of the three names or a number. -/
def word? (cs : List Char) : Option Json :=
  match String.ofList cs with
  | "null" => some .null
  | "true" => some (.bool true)
  | "false" => some (.bool false)
  | _ => number? cs

structure Scan where
  found : List Token
  mode : Mode

namespace Scan

def stepBetween (found : List Token) (c : Char) : Scan :=
  match mark? c with
  | some t => ⟨t :: found, .between⟩
  | none =>
    if isSpace c then ⟨found, .between⟩
    else if c = '"' then ⟨found, .string .start⟩
    else ⟨found, .word [c]⟩

def step (s : Scan) (c : Char) : Option Scan :=
  match s.mode with
  | .between => some (stepBetween s.found c)
  | .word seen =>
    if (mark? c).isSome || isSpace c || c = '"' then
      (word? seen.reverse).map fun v => stepBetween (.scalar v :: s.found) c
    else some ⟨s.found, .word (c :: seen)⟩
  | .string d =>
    if c = '"' then some ⟨.string d.finish :: s.found, .between⟩
    else if c = '\\' then some ⟨s.found, .escape d⟩
    else if c.val < 0x20 then none
    else some ⟨s.found, .string (d.add c)⟩
  | .escape d =>
    if c = 'u' then some ⟨s.found, .unit d []⟩
    else (escaped? c).map fun e => ⟨s.found, .string (d.add e)⟩
  | .unit d seen =>
    match seen with
    | [x, w, v] => (hexUnit? v w x c).map fun n => ⟨s.found, .string (d.addUnit n)⟩
    | _ => some ⟨s.found, .unit d (c :: seen)⟩

/-- The tokens at the end of the text; a string may not be open there. -/
def finish (s : Scan) : Option (List Token) :=
  match s.mode with
  | .between => some s.found.reverse
  | .word seen => (word? seen.reverse).map fun v => (.scalar v :: s.found).reverse
  | _ => none

end Scan

/-- The tokens of a text, or nothing if some part of it is no token. -/
def tokens? (cs : List Char) : Option (List Token) :=
  (cs.foldlM Scan.step ⟨[], .between⟩).bind Scan.finish

end Json
end PulseScript
