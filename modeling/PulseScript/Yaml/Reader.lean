import PulseScript.Yaml.Lexer

/-!
From tokens to nodes. Each function takes the tokens from where its part starts and returns
the ones behind it. The recursion is bounded by fuel, for which twice the number of tokens
suffices.
-/
namespace PulseScript
namespace Yaml

/-- What a node belongs to: a flow collection, where no block can stand; an item of a block
list; or an entry of a block map, whose value may be a list with its dashes at the column of
the key. -/
inductive Place where
  | flow | item | entry
  deriving DecidableEq, Repr

namespace Token

/-- What shows that an item of a block list was left out. -/
def endsItem : Token → Bool
  | .dash | .endBlock => true
  | _ => false

/-- What shows that a part of an entry of a block map was left out. -/
def endsPart : Token → Bool
  | .key | .value | .endBlock => true
  | _ => false

/-- What shows that an item was left out of a list with its dashes at the column of the
key. -/
def endsLooseItem (t : Token) : Bool := t.endsItem || t.endsPart

def endsFlowItem : Token → Bool
  | .comma | .closeList => true
  | _ => false

def endsFlowEntry : Token → Bool
  | .comma | .closeMap => true
  | _ => false

def isValue : Token → Bool
  | .value => true
  | _ => false

end Token

/-- A node, unless a token shows that it was left out. -/
def orNothing (isAbsent : Token → Bool) (read : List Token → Option (Yaml × List Token)) :
    List Token → Option (Yaml × List Token)
  | [] => none
  | t :: ts => if isAbsent t then some (nothing, t :: ts) else read (t :: ts)

def entryValue? (isAbsent : Token → Bool) (read : List Token → Option (Yaml × List Token)) :
    List Token → Option (Yaml × List Token)
  | .value :: ts => orNothing isAbsent read ts
  | ts => some (nothing, ts)

/-- An entry as an item of a flow list. If its key is left out, the token that shows this is
passed over too. -/
def pairItem? (read : List Token → Option (Yaml × List Token)) (ts : List Token) :
    Option (Yaml × List Token) := do
  let isAbsent (t : Token) := t.isValue || t.endsFlowItem
  let key ← match ts with
    | [] => none
    | t :: rest => if isAbsent t then some (nothing, rest) else read (t :: rest)
  let value ← entryValue? Token.endsFlowItem read key.2
  return (.map [(key.1, value.1)], value.2)

/-- An entry of a flow map. Without a colon or a question mark it is a key alone. -/
def flowEntry? (read : List Token → Option (Yaml × List Token)) :
    List Token → Option ((Yaml × Yaml) × List Token)
  | .key :: ts => do
    let key ← orNothing (fun t => t.isValue || t.endsFlowEntry) read ts
    let value ← entryValue? Token.endsFlowEntry read key.2
    return ((key.1, value.1), value.2)
  | ts => (read ts).map fun r => ((r.1, nothing), r.2)

def blockEntry? (read : List Token → Option (Yaml × List Token)) (ts : List Token) :
    Option ((Yaml × Yaml) × List Token) := do
  let key ← orNothing Token.endsPart read ts
  let value ← entryValue? Token.endsPart read key.2
  return ((key.1, value.1), value.2)

mutual
def node? : Nat → Place → List Token → Option (Yaml × List Token)
  | 0, _, _ => none
  | n + 1, place, ts =>
    match ts with
    | .scalar node :: rest => some (node, rest)
    | .openList :: rest => (flowItems? n rest).map fun r => (.list r.1, r.2)
    | .openMap :: rest => (flowEntries? n rest).map fun r => (.map r.1, r.2)
    | .beginItems :: rest =>
      if place = .flow then none else (blockItems? n rest).map fun r => (.list r.1, r.2)
    | .beginEntries :: rest =>
      if place = .flow then none else (blockEntries? n rest).map fun r => (.map r.1, r.2)
    | .dash :: _ =>
      if place = .entry then (looseItems? n ts).map fun r => (.list r.1, r.2) else none
    | _ => none

def blockItems? : Nat → List Token → Option (List Yaml × List Token)
  | 0, _ => none
  | _, .endBlock :: rest => some ([], rest)
  | n + 1, .dash :: rest => do
    let item ← orNothing Token.endsItem (node? n .item) rest
    let more ← blockItems? n item.2
    return (item.1 :: more.1, more.2)
  | _, _ => none

/-- The items of a block list with its dashes at the column of the key, which has no end of
its own. -/
def looseItems? : Nat → List Token → Option (List Yaml × List Token)
  | 0, _ => none
  | n + 1, .dash :: rest => do
    let item ← orNothing Token.endsLooseItem (node? n .item) rest
    let more ← looseItems? n item.2
    return (item.1 :: more.1, more.2)
  | _, ts => some ([], ts)

def blockEntries? : Nat → List Token → Option (List (Yaml × Yaml) × List Token)
  | 0, _ => none
  | _, .endBlock :: rest => some ([], rest)
  | n + 1, .key :: rest => do
    let entry ← blockEntry? (node? n .entry) rest
    let more ← blockEntries? n entry.2
    return (entry.1 :: more.1, more.2)
  | _, _ => none

def flowItems? : Nat → List Token → Option (List Yaml × List Token)
  | 0, _ => none
  | _, .closeList :: rest => some ([], rest)
  | n + 1, ts => do
    let item ← match ts with
      | .key :: rest => pairItem? (node? n .flow) rest
      | _ => node? n .flow ts
    match item.2 with
    | .comma :: rest => do
      let more ← flowItems? n rest
      return (item.1 :: more.1, more.2)
    | .closeList :: rest => some ([item.1], rest)
    | _ => none

def flowEntries? : Nat → List Token → Option (List (Yaml × Yaml) × List Token)
  | 0, _ => none
  | _, .closeMap :: rest => some ([], rest)
  | n + 1, ts => do
    let entry ← flowEntry? (node? n .flow) ts
    match entry.2 with
    | .comma :: rest => do
      let more ← flowEntries? n rest
      return (entry.1 :: more.1, more.2)
    | .closeMap :: rest => some ([entry.1], rest)
    | _ => none
end

def root? (ts : List Token) : Option (Yaml × List Token) := node? (2 * ts.length + 2) .item ts

/-- The node of a document whose start is marked. It may be left out. -/
def markedRoot? : List Token → Option (Yaml × List Token)
  | [] => some (nothing, [])
  | .documentStart :: ts => some (nothing, .documentStart :: ts)
  | .documentEnd :: ts => some (nothing, .documentEnd :: ts)
  | ts => root? ts

def isDocumentEnd : Token → Bool
  | .documentEnd => true
  | _ => false

/-- The only document in the tokens, with any number of marks for its end; without tokens
there is none. -/
def ofTokens? (ts : List Token) : Option (Option Yaml) :=
  let only (r : Yaml × List Token) : Option (Option Yaml) :=
    if r.2.all isDocumentEnd then some (some r.1) else none
  match ts with
  | [] => some none
  | .documentStart :: rest => (markedRoot? rest).bind only
  | _ => (root? ts).bind only

/-- Reads a text: no answer if it is no document, and no node if it is empty. -/
def ofText? (s : String) : Option (Option Yaml) :=
  if s.toList.all isPrintable then (tokens? (unifyBreaks s.toList)).bind ofTokens? else none

end Yaml
end PulseScript
