/-!
YAML documents of the kind that describe devices: block and flow collections with plain
and quoted scalars. A scalar keeps its text and whether it stood without quotes, because
only an unquoted one can be a number.

This is a part of YAML. Directives, anchors, aliases, tags and block scalars are not read: a text
with one of them is refused, also where a reader of all of YAML would find a description in it.
A text has one document at most, and any node can be a key.
-/
namespace PulseScript

inductive Yaml where
  | scalar (text : String) (isPlain : Bool)
  | list (items : List Yaml)
  | map (entries : List (Yaml × Yaml))
  deriving Repr

namespace Yaml

def nothing : Yaml := .scalar "" true

def isSpace (c : Char) : Bool := c == ' ' || c == '\t'

/-- The characters that end a line, once `unifyBreaks` has done its work. -/
def isBreak (c : Char) : Bool := c == '\n' || c == '\u2028' || c == '\u2029'

/-- The text with one line feed for each break that is kept as a line feed: a carriage
return, alone or before a line feed, and the next-line character. -/
def unifyBreaks : List Char → List Char
  | [] => []
  | '\r' :: '\n' :: cs => '\n' :: unifyBreaks cs
  | '\r' :: cs => '\n' :: unifyBreaks cs
  | '\u0085' :: cs => '\n' :: unifyBreaks cs
  | c :: cs => c :: unifyBreaks cs

def isPrintable (c : Char) : Bool :=
  let n := c.val
  n == 9 || n == 10 || n == 13 || (0x20 ≤ n && n ≤ 0x7E) || n == 0x85 ||
    (0xA0 ≤ n && n ≤ 0xFFFD) || 0x10000 ≤ n

/-- The byte order mark, which may stand at the start of any line. -/
def isByteOrderMark (c : Char) : Bool := c == '\uFEFF'

def isFlowMark (c : Char) : Bool :=
  c == ',' || c == '[' || c == ']' || c == '\x7b' || c == '\x7d'

/-- Whether the line or a blank follows, so that what stands before is complete. -/
def endsWord (rest : List Char) : Bool := rest.head?.all fun c => isSpace c || isBreak c

/-- Whether the three characters that start or end a document begin here, which they do at
the start of a line only. -/
def isDocumentMark (c : Char) (rest : List Char) : Bool :=
  (c == '-' || c == '.') && rest.take 2 == [c, c] && endsWord (rest.drop 2)

/-- Whether a plain scalar can start with a character. Indicators cannot start one, except
that a dash, a question mark or a colon can if something follows at once; in a flow
collection the last two cannot. -/
def startsPlain (inFlow : Bool) (c : Char) (rest : List Char) : Bool :=
  if c == '-' then !endsWord rest
  else if c == '?' || c == ':' then !inFlow && !endsWord rest
  else !(isSpace c || isBreak c || isFlowMark c || "#&*!|>'\"%@\x60".contains c)

end Yaml
end PulseScript
