import PulseScript.Json.Basic
import PulseScript.Binary64.Text

/-!
Writing JSON text, without any space. Integers have neither point nor exponent and
other numbers always have one of them, so reading keeps them apart. Only quotes, backslashes and
the characters below the space are escaped; a number that is not finite is written as `null`.
-/
namespace PulseScript
namespace Json

def hexDigit (n : Nat) : Char := Char.ofNat (if n < 10 then 48 + n else 87 + n)

/-- A character inside a string. Quotes, backslashes and control characters are escaped. -/
def escapeChar (c : Char) : List Char :=
  match c with
  | '"' => ['\\', '"']
  | '\\' => ['\\', '\\']
  | '\x08' => ['\\', 'b']
  | '\x0c' => ['\\', 'f']
  | '\n' => ['\\', 'n']
  | '\r' => ['\\', 'r']
  | '\t' => ['\\', 't']
  | c =>
    if c.val < 0x20 then ['\\', 'u', '0', '0', hexDigit (c.toNat / 16), hexDigit (c.toNat % 16)]
    else [c]

def stringChars (s : String) : List Char :=
  '"' :: s.toList.flatMap escapeChar ++ ['"']

def intChars (n : Int) : List Char :=
  Binary64.signChars (n < 0) ++ decimalDigits n.natAbs

mutual
/-- The text of a value. A value without text of its own is written as `null`. -/
def chars : Json → List Char
  | .null => ['n', 'u', 'l', 'l']
  | .bool true => ['t', 'r', 'u', 'e']
  | .bool false => ['f', 'a', 'l', 's', 'e']
  | .int n => intChars n
  | .float x => x.jsonChars
  | .string s => stringChars s
  | .array items => '[' :: itemsChars items ++ [']']
  | .object members => '\x7b' :: membersChars members ++ ['\x7d']
  | .unreadable => ['n', 'u', 'l', 'l']

def itemsChars : List Json → List Char
  | [] => []
  | [v] => chars v
  | v :: w :: vs => chars v ++ ',' :: itemsChars (w :: vs)

def membersChars : List (String × Json) → List Char
  | [] => []
  | [(k, v)] => stringChars k ++ ':' :: chars v
  | (k, v) :: m :: ms => stringChars k ++ ':' :: chars v ++ ',' :: membersChars (m :: ms)
end

def render (v : Json) : String := String.ofList (chars v)

end Json
end PulseScript
