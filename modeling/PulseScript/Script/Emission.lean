import PulseScript.Couplers
import PulseScript.Ignore
import PulseScript.Script.Context

/-!
From a circuit to its script. Each moment is one group of lines that a barrier closes:
first instructions and context blocks in the order of their smallest labels, then one
line that measures all measured labels, then the moments of nested circuits. The last
barrier of a nested circuit also closes the moment around it.
-/
namespace PulseScript

structure Target where
  labelOf? : Qubit → Option String
  agents : List String
  couplers : Option CouplerRegistry
  policy : IgnorePolicy

/-- What one operation adds to the lines of its moment. Lines of a nested circuit are
computed once, and are looked at only if they are to be written. -/
inductive Part where
  | nothing
  | entry (key : String) (lines : List String)
  | measured (labels : List String)
  | nested (key : String) (repetitions : Nat) (lines : Except ScriptError (List String))

namespace Target

def label (t : Target) (q : Qubit) : Except ScriptError String :=
  match t.labelOf? q with
  | some label => .ok label
  | none => .error (.unmappedQubit q)

def barrier (t : Target) : String := Mnemonic.barrier.text ++ " " ++ " ".intercalate t.agents

def arityError (name : String) (expected : UInt32) (qs : List Qubit) : ScriptError :=
  .build (.qubitCountMismatch name expected (.ofNat qs.length))

def singleLabel (t : Target) (name : String) (qs : List Qubit) : Except ScriptError String :=
  match qs with
  | [q] => t.label q
  | _ => .error (arityError name 1 qs)

def minLabel (a b : String) : String := if b < a then b else a

/-- The smallest label of the qubits; without qubits the empty text. -/
def smallestLabel (t : Target) (qs : List Qubit) : Except ScriptError String := do
  match ← qs.mapM t.label with
  | [] => return ""
  | l :: ls => return ls.foldl minLabel l

/-- The coupler that joins two labels. -/
def coupler (t : Target) (a b : String) : Except ScriptError String :=
  match t.couplers with
  | none => .error .missingCouplers
  | some registry =>
    match registry.nameFor? a b with
    | some name => .ok name
    | none => .error (.missingCoupler (.pair a b))

/-- The line of an action with this mnemonic, and the label that it is sorted by. -/
def instruction (t : Target) (m : Mnemonic) (a : Action) (qs : List Qubit) :
    Except ScriptError Part :=
  match m.operands, a, qs with
  | .qubit, _, _ => do
    let label ← t.singleLabel a.name qs
    return .entry label [m.text ++ " " ++ label]
  | .coupler, _, [p, q] => do
    let lp ← t.label p
    let lq ← t.label q
    let name ← t.coupler lp lq
    return .entry (minLabel lp lq) [m.text ++ " " ++ name]
  | .coupler, _, _ => .error (arityError a.name 2 qs)
  | .qubitDuration, .delay ns, _ => do
    let label ← t.singleLabel a.name qs
    return .entry label [Decoupling.idleLine label ns]
  | _, _, _ => .error (.unsupported a.name qs)

def actionPart (t : Target) (a : Action) (qs : List Qubit) : Except ScriptError Part :=
  if t.policy.ignoresAction a then .ok .nothing
  else
    match a with
    | .measure => do return .measured (← qs.mapM t.label)
    | .decoupling d => do
      let label ← t.singleLabel a.name qs
      return .entry label (← d.contextLines label)
    | _ =>
      match a.resolve? with
      | some (.instruction m) => t.instruction m a qs
      | some .identity => .ok .nothing
      | none => .error (.unsupported a.name qs)

end Target

namespace Part

/-- The sort key and the lines of an entry. -/
def entry? : Part → Option (String × List String)
  | entry key lines => some (key, lines)
  | _ => none

def labels : Part → List String
  | measured ls => ls
  | _ => []

def nested? : Part → Option (String × Nat × Except ScriptError (List String))
  | nested key n lines => some (key, n, lines)
  | _ => none

end Part

/-- Pairs in the order of their keys; equal keys keep their order. -/
def sortByKey (xs : List (String × α)) : List (String × α) :=
  xs.mergeSort fun a b => decide (a.1 ≤ b.1)

def repeatLines (n : Nat) (lines : List String) : List String :=
  if lines.isEmpty then [] else (List.replicate n lines).flatten

def entryLines (parts : List Part) : List String :=
  (sortByKey (parts.filterMap Part.entry?)).flatMap (·.2)

/-- The line that measures all labels of a moment, if there are any. -/
def measureLines (parts : List Part) : List String :=
  match (parts.flatMap Part.labels).mergeSort with
  | [] => []
  | labels => [Mnemonic.measure.text ++ " " ++ " ".intercalate labels]

/-- The lines of the nested circuits of a moment. What is repeated zero times is not
looked at. -/
def nestedLines (parts : List Part) : Except ScriptError (List String) := do
  let groups ← (sortByKey (parts.filterMap Part.nested?)).mapM fun (_, n, lines) =>
    if n = 0 then pure [] else lines.map (repeatLines n)
  return groups.flatten

namespace Target

/-- The lines of a moment whose operations have given these parts. -/
def partsLines (t : Target) (parts : List Part) : Except ScriptError (List String) := do
  let nested ← nestedLines parts
  let closing := if nested.isEmpty then [t.barrier] else []
  return entryLines parts ++ measureLines parts ++ nested ++ closing

end Target

mutual
/-- What an operation adds to the lines of its moment. -/
def operationPart (t : Target) : Operation → Except ScriptError Part
  | .act a qs => t.actionPart a qs
  | .subcircuit ⟨ms⟩ n qs => do
    let key ← t.smallestLabel qs
    return .nested key n.toNat (momentsLines t ms)

def operationParts (t : Target) : List Operation → Except ScriptError (List Part)
  | [] => .ok []
  | op :: ops => do
    let part ← operationPart t op
    let parts ← operationParts t ops
    return part :: parts

def momentsLines (t : Target) : List Moment → Except ScriptError (List String)
  | [] => .ok []
  | ⟨ops⟩ :: ms => do
    let parts ← operationParts t ops
    let lines ← t.partsLines parts
    let rest ← momentsLines t ms
    return lines ++ rest
end

def Action.needsCoupler (a : Action) : Bool :=
  match a.resolve? with
  | some (.instruction m) => m.operands == .coupler
  | _ => false

mutual
/-- Whether some action that is not ignored needs a coupler, at any depth and whatever the
repetitions are. -/
def operationNeedsCouplers (p : IgnorePolicy) : Operation → Bool
  | .act a _ => !p.ignoresAction a && a.needsCoupler
  | .subcircuit ⟨ms⟩ _ _ => momentsNeedCouplers p ms

def operationsNeedCouplers (p : IgnorePolicy) : List Operation → Bool
  | [] => false
  | op :: ops => operationNeedsCouplers p op || operationsNeedCouplers p ops

def momentsNeedCouplers (p : IgnorePolicy) : List Moment → Bool
  | [] => false
  | ⟨ops⟩ :: ms => operationsNeedCouplers p ops || momentsNeedCouplers p ms
end

/-- The text of lines, each with its line feed. A script without lines is one empty line. -/
def scriptText (lines : List String) : String :=
  if lines.isEmpty then "\n" else String.ofList (lines.flatMap fun l => l.toList ++ ['\n'])

namespace Circuit

def needsCouplers (p : IgnorePolicy) (c : Circuit) : Bool := momentsNeedCouplers p c.moments

def lines (t : Target) (c : Circuit) : Except ScriptError (List String) :=
  if t.agents.isEmpty then .error .noAgents
  else if t.couplers.isNone && c.needsCouplers t.policy then .error .missingCouplers
  else momentsLines t c.moments

/-- The script of the circuit. -/
def toScript (t : Target) (c : Circuit) : Except ScriptError String :=
  (c.lines t).map scriptText

end Circuit
end PulseScript
