import PulseScript.Text.Blank

/-!
The lines of a script and their tokens. A line is divided into words by spaces, tabs and
carriage returns; a `#` ends the word before it and starts a comment that fills the rest
of the line. Lines without a token are dropped, and the others keep their number.
-/
namespace PulseScript

inductive Token where
  | word (text : String)
  | comment (text : String)
  deriving DecidableEq, Repr

/-- A line with at least one token. Its text runs from the first token to the end of the
last one. -/
structure SourceLine where
  number : Nat
  text : String
  first : Token
  rest : List Token
  deriving DecidableEq, Repr

/-- What divides the words of a line. -/
def isSeparator (c : Char) : Bool := c == ' ' || c == '\t' || c == '\r'

/-- The lines of a text, which the line feeds divide. -/
def splitLines (cs : List Char) : List (List Char) :=
  cs.foldr (fun c lines =>
    if c = '\n' then [] :: lines
    else match lines with
      | [] => [[c]]
      | line :: rest => (c :: line) :: rest) [[]]

/-- The comment of a line, if it has one, up to its last character that is not blank. -/
def lineComment (line : List Char) : List Token :=
  match line.dropWhile (· != '#') with
  | [] => []
  | cs => [.comment (String.ofList (dropEndWhile isBlank cs))]

/-- The words of a line, up to its comment. -/
def lineWords (line : List Char) : List String :=
  (splitRuns isSeparator (line.takeWhile (· != '#'))).map String.ofList

def lineTokens (line : List Char) : List Token :=
  (lineWords line).map .word ++ lineComment line

/-- The line from its first token to the end of its last. A comment reaches to the very
end of the line, with the blank space there. -/
def lineText (line : List Char) : String :=
  let start := line.dropWhile isSeparator
  String.ofList (if line.contains '#' then start else dropEndWhile isSeparator start)

def SourceLine.ofChars? (number : Nat) (line : List Char) : Option SourceLine :=
  match lineTokens line with
  | [] => none
  | first :: rest => some ⟨number, lineText line, first, rest⟩

/-- The lines of a script that have a token, numbered from 1. -/
def sourceLines (source : String) : List SourceLine :=
  ((splitLines source.toList).zipIdx 1).filterMap fun l => SourceLine.ofChars? l.2 l.1

end PulseScript
