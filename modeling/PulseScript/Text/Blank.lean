/-!
Blank space. Texts are trimmed and split at the characters that Unicode calls white
space; the words of a script line are divided by three of them only, which the
script's own module names.
-/
namespace PulseScript

/-- The characters with the Unicode property `White_Space`. -/
def isBlank (c : Char) : Bool :=
  let n := c.val
  (9 ≤ n && n ≤ 13) || n == 0x20 || n == 0x85 || n == 0xA0 || n == 0x1680 ||
    (0x2000 ≤ n && n ≤ 0x200A) || n == 0x2028 || n == 0x2029 || n == 0x202F ||
    n == 0x205F || n == 0x3000

/-- Removes what satisfies `p` at the end. -/
def dropEndWhile (p : Char → Bool) (cs : List Char) : List Char :=
  (cs.reverse.dropWhile p).reverse

/-- Removes what satisfies `p` at both ends. -/
def stripWhile (p : Char → Bool) (cs : List Char) : List Char :=
  dropEndWhile p (cs.dropWhile p)

/-- The maximal runs of characters that do not satisfy `p`, in order. -/
def splitRuns (p : Char → Bool) : List Char → List (List Char)
  | [] => []
  | c :: cs =>
    if p c then splitRuns p cs
    else
      match cs with
      | [] => [[c]]
      | d :: _ =>
        if p d then [c] :: splitRuns p cs
        else
          match splitRuns p cs with
          | [] => [[c]]
          | run :: runs => (c :: run) :: runs

def blankWords (s : String) : List String :=
  (splitRuns isBlank s.toList).map String.ofList

end PulseScript
