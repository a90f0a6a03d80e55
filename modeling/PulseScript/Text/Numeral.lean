/-!
Decimal numerals as characters: the digits of a natural number, and numerals with
an optional fraction and exponent. Which numerals a format allows is decided where
the format is read; here stands only what each of them denotes.
-/
namespace PulseScript

/-- The digits of a natural number, most significant first and without padding. -/
def decimalDigits (n : Nat) : List Char := Nat.toDigits 10 n

def natText (n : Nat) : String := String.ofList (decimalDigits n)

/-- The number that a nonempty run of ASCII digits denotes; leading zeros are allowed. -/
def natOfDigits? (cs : List Char) : Option Nat :=
  if cs ≠ [] ∧ cs.all Char.isDigit then some (Nat.ofDigitChars 10 cs 0) else none

structure Numeral where
  whole : List Char
  fraction : Option (List Char)
  exponent : Option Int
  deriving DecidableEq, Repr

namespace Numeral

/-- An exponent's digits with an optional sign. -/
def signedExponent? : List Char → Option Int
  | '+' :: ds => (natOfDigits? ds).map Int.ofNat
  | '-' :: ds => (natOfDigits? ds).map fun n => -Int.ofNat n
  | ds => (natOfDigits? ds).map Int.ofNat

/-- What follows the digits: nothing, or an exponent and nothing else. -/
def exponentPart? : List Char → Option (Option Int)
  | [] => some none
  | c :: cs => if c = 'e' || c = 'E' then (signedExponent? cs).map some else none

/-- Reads a numeral that fills the whole text. Either run of digits may be empty. -/
def ofChars? (cs : List Char) : Option Numeral :=
  let whole := cs.takeWhile Char.isDigit
  match cs.dropWhile Char.isDigit with
  | '.' :: rest =>
    (exponentPart? (rest.dropWhile Char.isDigit)).map fun e =>
      ⟨whole, some (rest.takeWhile Char.isDigit), e⟩
  | rest => (exponentPart? rest).map fun e => ⟨whole, none, e⟩

/-- All digits of the numeral, read as one whole number. -/
def digits (n : Numeral) : Nat :=
  Nat.ofDigitChars 10 (n.whole ++ n.fraction.getD []) 0

/-- The power of ten that the last digit counts. -/
def place (n : Numeral) : Int :=
  n.exponent.getD 0 - (n.fraction.getD []).length

def isWhole (n : Numeral) : Bool := n.fraction.isNone && n.exponent.isNone

end Numeral
end PulseScript
