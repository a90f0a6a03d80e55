import PulseScript.Json.Token
import PulseScript.Yaml.Basic

/-!
The text of scalars. A scalar may go on over several lines: one break between two parts of
it is a space, of more breaks the first is dropped, and the blanks around them never count.
Between double quotes a backslash starts an escape, and before a break it joins two lines.
-/
namespace PulseScript
namespace Yaml

/-- Blanks and breaks between two parts of a scalar, last one first. The first break is
kept apart; there is none if the line before was joined. -/
inductive Gap where
  | blank (seen : List Char)
  | broken (first : Option Char) (more : List Char)
  deriving Repr

namespace Gap

def none : Gap := .blank []

def isNone : Gap → Bool
  | .blank [] => true
  | _ => false

def isBroken : Gap → Bool
  | .broken .. => true
  | .blank _ => false

/-- One more blank or break. Blanks count on the first line only, and only if it is the
last too. -/
def add (c : Char) : Gap → Gap
  | .blank seen => if isBreak c then .broken (some c) [] else .blank (c :: seen)
  | .broken first more => if isBreak c then .broken first (c :: more) else .broken first more

/-- What the gap stands for, last character first. -/
def folded : Gap → List Char
  | .blank seen => seen
  | .broken (some '\n') [] => [' ']
  | .broken (some '\n') more => more
  | .broken first more => more ++ first.toList

end Gap

/-- A scalar being read: its text so far, last character first, and the gap behind it. -/
structure Draft where
  text : List Char
  gap : Gap
  deriving Repr

namespace Draft

def start : Draft := ⟨[], .none⟩

def space (d : Draft) (c : Char) : Draft := ⟨d.text, d.gap.add c⟩

def closed (d : Draft) : Draft := ⟨d.gap.folded ++ d.text, .none⟩

def add (d : Draft) (c : Char) : Draft := ⟨c :: d.closed.text, .none⟩

/-- An escaped break. It stands for nothing, and neither do the blanks behind it. -/
def join (d : Draft) : Draft := ⟨d.closed.text, .broken none []⟩

/-- A plain scalar ends before its last gap. -/
def plain (d : Draft) : Yaml := .scalar (String.ofList d.text.reverse) true

/-- A quoted scalar ends with its last gap. -/
def quoted (d : Draft) : Yaml := .scalar (String.ofList d.closed.text.reverse) false

end Draft

def escaped? : Char → Option Char
  | '0' => some '\x00'
  | 'a' => some '\x07'
  | 'b' => some '\x08'
  | 't' => some '\t'
  | '\t' => some '\t'
  | 'n' => some '\n'
  | 'v' => some '\x0b'
  | 'f' => some '\x0c'
  | 'r' => some '\r'
  | 'e' => some '\x1b'
  | ' ' => some ' '
  | '"' => some '"'
  | '/' => some '/'
  | '\\' => some '\\'
  | 'N' => some '\u0085'
  | '_' => some '\u00a0'
  | 'L' => some '\u2028'
  | 'P' => some '\u2029'
  | _ => none

/-- The number of hexadecimal digits after an escape that names a character, less one. -/
def hexLength? : Char → Option Nat
  | 'x' => some 1
  | 'u' => some 3
  | 'U' => some 7
  | _ => none

/-- The character with a number. Surrogates are no characters. -/
def charOf? (n : Nat) : Option Char := if n.isValidChar then some (Char.ofNat n) else none

end Yaml
end PulseScript
