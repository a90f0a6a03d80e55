import PulseScript.Yaml.Basic

/-!
The tokens of a document, and what must be known to find them: which block collections are
open at which columns, and where a key may have started. That something is a key shows
only at the colon behind it, so its token is put in later at the place where it started.
-/
namespace PulseScript
namespace Yaml

/-- A token. Block collections begin and end by their columns, without a mark of their own. -/
inductive Token where
  | documentStart | documentEnd
  | beginItems | beginEntries | endBlock
  | openList | closeList | openMap | closeMap
  | comma | dash | key | value
  | scalar (node : Yaml)
  deriving Repr

/-- A place where a key may have started: the number of tokens before it, its column, and
the bytes before it in its line. It must turn out to be one if nothing else can stand at
this column. -/
structure KeyStart where
  position : Nat
  column : Nat
  offset : Nat
  isRequired : Bool
  deriving DecidableEq, Repr

/-- What is known at a character: the tokens before it, last one first; the characters and
the bytes before it in its line; the columns of the open block collections, innermost
first; where a key may have started here and around each open flow collection; and whether
one may start at this character. -/
structure Outline where
  found : List Token
  column : Nat
  offset : Nat
  blocks : List Nat
  keyStart : Option KeyStart
  outerStarts : List (Option KeyStart)
  mayStartKey : Bool
  deriving Repr

namespace Outline

def start : Outline := ⟨[], 0, 0, [], none, [], true⟩

def inFlow (o : Outline) : Bool := !o.outerStarts.isEmpty

def add (t : Token) (o : Outline) : Outline := { o with found := t :: o.found }

def allowKey (allowed : Bool) (o : Outline) : Outline := { o with mayStartKey := allowed }

/-- No key started here, unless one had to. -/
def dropKey (o : Outline) : Option Outline :=
  if o.keyStart.any KeyStart.isRequired then none else some { o with keyStart := none }

def saveKey (o : Outline) : Option Outline :=
  if o.mayStartKey then
    let isRequired := !o.inFlow && o.blocks.head? == some o.column
    o.dropKey.map fun o => { o with keyStart := some ⟨o.found.length, o.column, o.offset, isRequired⟩ }
  else some o

/-- Whether a new block collection can begin at a column: it stands further in than the
ones around it. -/
def isInside (o : Outline) (column : Nat) : Bool := o.blocks.head?.all (· < column)

/-- Whether a continued scalar has run out of its block here. -/
def isOutside (o : Outline) : Bool := o.blocks.head?.any (o.column ≤ ·)

/-- Begins a block collection at this column, unless it has begun already. Flow
collections have none inside. -/
def openBlock (t : Token) (o : Outline) : Outline :=
  if !o.inFlow && o.isInside o.column then
    { o with found := t :: o.found, blocks := o.column :: o.blocks }
  else o

/-- Ends the block collections for which `isOver` holds, from the innermost on. -/
def closeBlocks (isOver : Nat → Bool) (o : Outline) : Outline :=
  if o.inFlow then o
  else
    { o with
      found := List.replicate (o.blocks.takeWhile isOver).length .endBlock ++ o.found
      blocks := o.blocks.dropWhile isOver }

def insert (position : Nat) (ts : List Token) (o : Outline) : Outline :=
  let later := o.found.length - position
  { o with found := o.found.take later ++ ts.reverse ++ o.found.drop later }

/-- The most bytes that a key may have, counted up to its colon in the usual encoding. -/
def keyLimit : Nat := 1024

def addKey (k : KeyStart) (o : Outline) : Outline :=
  let begins := !o.inFlow && o.isInside k.column
  let o := o.insert k.position (if begins then [.beginEntries, .key] else [.key])
  { o with
    blocks := if begins then k.column :: o.blocks else o.blocks
    keyStart := none
    mayStartKey := false }

/-- The rule for indicators that begin an item or entry of a block collection: a key must
be allowed where they stand. -/
def beginPart (t : Token) (o : Outline) : Option Outline :=
  if o.inFlow then some o
  else if o.mayStartKey then some (o.openBlock t)
  else none

/-- A colon without a key before it. -/
def addMissingKey (o : Outline) : Option Outline :=
  (o.beginPart .beginEntries).map fun o => o.allowKey !o.inFlow

/-- A colon: what started at the place of a possible key is one. -/
def addValue (o : Outline) : Option Outline :=
  let found := match o.keyStart with
    | none => o.addMissingKey
    | some k =>
      if o.offset ≤ k.offset + keyLimit then some (o.addKey k)
      else o.dropKey.bind addMissingKey
  found.map (add .value)

def announceKey (o : Outline) : Option Outline := do
  let o ← (← o.beginPart .beginEntries).dropKey
  return (o.allowKey !o.inFlow).add .key

def addDash (o : Outline) : Option Outline := do
  let o ← (← o.beginPart .beginItems).dropKey
  return (o.allowKey true).add .dash

def addComma (o : Outline) : Option Outline :=
  o.dropKey.map fun o => (o.allowKey true).add .comma

/-- The start of a flow collection, which may be a key as a whole. -/
def openFlow (t : Token) (o : Outline) : Option Outline :=
  o.saveKey.map fun o =>
    { o with
      found := t :: o.found
      keyStart := none
      outerStarts := o.keyStart :: o.outerStarts
      mayStartKey := true }

/-- The end of a flow collection. Only outside of it does a key have its place again. -/
def closeFlow (t : Token) (o : Outline) : Option Outline :=
  o.dropKey.map fun o =>
    { o with
      found := t :: o.found
      keyStart := o.outerStarts.head?.join
      outerStarts := o.outerStarts.tail
      mayStartKey := false }

/-- The start or end of a document, which ends all block collections. -/
def addDocumentMark (t : Token) (o : Outline) : Option Outline :=
  (o.closeBlocks fun _ => true).dropKey.map fun o => (o.allowKey false).add t

def advance (c : Char) (o : Outline) : Outline :=
  { o with column := o.column + 1, offset := o.offset + c.utf8Size }

/-- The next line. No key goes on over a break. -/
def newLine (o : Outline) : Option Outline :=
  if (o.keyStart :: o.outerStarts).any (·.any KeyStart.isRequired) then none
  else
    some { o with
      column := 0
      offset := 0
      keyStart := none
      outerStarts := o.outerStarts.map fun _ => none }

def finish (o : Outline) : Option (List Token) :=
  (o.closeBlocks fun _ => true).dropKey.map fun o => o.found.reverse

end Outline

end Yaml
end PulseScript
