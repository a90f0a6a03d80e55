import PulseScript.Yaml.Scalar
import PulseScript.Yaml.Token

/-!
From characters to tokens. The lexer takes one character at a time and sees the ones behind
it, so its run is a recursion on the text. Directives, anchors, aliases, tags and block
scalars are refused (`beginToken`).
-/
namespace PulseScript
namespace Yaml

/-- Where the lexer stands: between tokens, in the rest of a document mark, in a comment, in
a plain scalar, between single quotes, at the second of two single quotes, between double
quotes, behind a backslash, or among the hexadecimal digits of an escape. -/
inductive Mode where
  | between
  | mark (more : Nat)
  | comment
  | plain (draft : Draft)
  | single (draft : Draft)
  | doubled (draft : Draft)
  | double (draft : Draft)
  | escape (draft : Draft)
  | hex (draft : Draft) (more : Nat) (number : Nat)
  deriving Repr

structure Lexer where
  outline : Outline
  mode : Mode
  deriving Repr

namespace Lexer

/-- What a mark of one character does, if there is one here. The inner answer is missing where
the mark is not allowed. -/
def mark? (o : Outline) (c : Char) (rest : List Char) : Option (Option Outline) :=
  match c with
  | '[' => some (o.openFlow .openList)
  | '\x7b' => some (o.openFlow .openMap)
  | ']' => some (o.closeFlow .closeList)
  | '\x7d' => some (o.closeFlow .closeMap)
  | ',' => some o.addComma
  | '-' => if endsWord rest then some o.addDash else none
  | '?' => if o.inFlow || endsWord rest then some o.announceKey else none
  | ':' => if o.inFlow || endsWord rest then some o.addValue else none
  | _ => none

def beginScalar (o : Outline) (mode : Mode) : Option Lexer :=
  o.saveKey.map fun o => ⟨o.allowKey false, mode⟩

/-- The first character of a token. Block collections that started further out stay open. -/
def beginToken (o : Outline) (c : Char) (rest : List Char) : Option Lexer :=
  let o := o.closeBlocks (o.column < ·)
  if o.column = 0 && c == '%' then none
  else if o.column = 0 && isDocumentMark c rest then
    (o.addDocumentMark (if c == '-' then .documentStart else .documentEnd)).map (⟨·, .mark 1⟩)
  else
    match mark? o c rest with
    | some next => next.map (⟨·, .between⟩)
    | none =>
      if c == '\'' then beginScalar o (.single .start)
      else if c == '"' then beginScalar o (.double .start)
      else if startsPlain o.inFlow c rest then beginScalar o (.plain (Draft.start.add c))
      else none

/-- A character between tokens. A tab may not stand where a block could start. -/
def stepBetween (o : Outline) (c : Char) (rest : List Char) : Option Lexer :=
  if o.column = 0 && isByteOrderMark c then some ⟨o, .between⟩
  else if c == ' ' || (c == '\t' && (o.inFlow || !o.mayStartKey)) then some ⟨o, .between⟩
  else if c == '#' then some ⟨o, .comment⟩
  else if isBreak c then some ⟨o.allowKey (o.mayStartKey || !o.inFlow), .between⟩
  else beginToken o c rest

/-- A break ends a comment. -/
def stepComment (o : Outline) (c : Char) : Lexer :=
  if isBreak c then ⟨o.allowKey (o.mayStartKey || !o.inFlow), .between⟩ else ⟨o, .comment⟩

/-- Whether a plain scalar ends before a character. After a gap it ends at a comment, at a
document mark and where its block ends; anywhere at a colon that a blank follows, and
inside a flow collection at its marks. -/
def endsPlain (o : Outline) (gap : Gap) (c : Char) (rest : List Char) : Bool :=
  (!gap.isNone && (c == '#' || (o.column = 0 && isDocumentMark c rest) ||
    (!o.inFlow && o.isOutside))) ||
  (c == ':' && endsWord rest) || (o.inFlow && isFlowMark c)

/-- A colon inside a plain scalar that no one can tell from the colon behind a key. -/
def isUnclear (o : Outline) (c : Char) (rest : List Char) : Bool :=
  o.inFlow && c == ':' && rest.head?.any fun d => isFlowMark d || d == '?'

/-- A plain scalar is over. After a break a key may start. -/
def endPlain (o : Outline) (d : Draft) : Outline :=
  (o.add (.scalar d.plain)).allowKey d.gap.isBroken

/-- A character in a plain scalar. A tab may not stand where indentation belongs. -/
def stepPlain (o : Outline) (d : Draft) (c : Char) (rest : List Char) : Option Lexer :=
  if isSpace c || isBreak c then
    if c == '\t' && d.gap.isBroken && o.isOutside then none else some ⟨o, .plain (d.space c)⟩
  else if endsPlain o d.gap c rest then stepBetween (endPlain o d) c rest
  else if isUnclear o c rest then none
  else some ⟨o, .plain (d.add c)⟩

def endQuoted (o : Outline) (d : Draft) : Lexer := ⟨o.add (.scalar d.quoted), .between⟩

def stepSingle (o : Outline) (d : Draft) (c : Char) (rest : List Char) : Option Lexer :=
  if isSpace c || isBreak c then some ⟨o, .single (d.space c)⟩
  else if o.column = 0 && isDocumentMark c rest then none
  else if c == '\'' then
    some (if rest.head? == some '\'' then ⟨o, .doubled d⟩ else endQuoted o d)
  else some ⟨o, .single (d.add c)⟩

def stepDouble (o : Outline) (d : Draft) (c : Char) (rest : List Char) : Option Lexer :=
  if isSpace c || isBreak c then some ⟨o, .double (d.space c)⟩
  else if o.column = 0 && isDocumentMark c rest then none
  else if c == '"' then some (endQuoted o d)
  else if c == '\\' then some ⟨o, .escape d⟩
  else some ⟨o, .double (d.add c)⟩

def stepEscape (o : Outline) (d : Draft) (c : Char) : Option Lexer :=
  if isBreak c then some ⟨o, .double d.join⟩
  else
    match hexLength? c with
    | some more => some ⟨o, .hex d more 0⟩
    | none => (escaped? c).map fun e => ⟨o, .double (d.add e)⟩

def stepHex (o : Outline) (d : Draft) (more number : Nat) (c : Char) : Option Lexer := do
  let number := number * 16 + (← Json.hexDigit? c)
  match more with
  | 0 => (charOf? number).map fun e => ⟨o, .double (d.add e)⟩
  | m + 1 => some ⟨o, .hex d m number⟩

def read (l : Lexer) (c : Char) (rest : List Char) : Option Lexer :=
  let o := l.outline
  match l.mode with
  | .between => stepBetween o c rest
  | .mark 0 => some ⟨o, .between⟩
  | .mark (m + 1) => some ⟨o, .mark m⟩
  | .comment => some (stepComment o c)
  | .plain d => stepPlain o d c rest
  | .single d => stepSingle o d c rest
  | .doubled d => some ⟨o, .single (d.add c)⟩
  | .double d => stepDouble o d c rest
  | .escape d => stepEscape o d c
  | .hex d more number => stepHex o d more number c

def step (l : Lexer) (c : Char) (rest : List Char) : Option Lexer := do
  let next ← l.read c rest
  let o ← if isBreak c then next.outline.newLine else some (next.outline.advance c)
  return ⟨o, next.mode⟩

def run : Lexer → List Char → Option Lexer
  | l, [] => some l
  | l, c :: cs => (l.step c cs).bind fun next => run next cs

/-- The tokens at the end of the text; quotes may not be open there. -/
def finish (l : Lexer) : Option (List Token) :=
  match l.mode with
  | .between | .comment => l.outline.finish
  | .plain d => (endPlain l.outline d).finish
  | _ => none

end Lexer

def tokens? (cs : List Char) : Option (List Token) :=
  (Lexer.run ⟨.start, .between⟩ cs).bind Lexer.finish

end Yaml
end PulseScript
