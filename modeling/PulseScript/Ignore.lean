import PulseScript.Mnemonic
import PulseScript.Text.Blank

/-!
What is left out on purpose: operations that match a rule when a circuit is compiled,
and script lines that start in a given way when a script is read. A line filter may not
be able to match a barrier, because a lost barrier would join two moments.
-/
namespace PulseScript

inductive IgnoreRule where
  | allNoise
  | noise (name : String)
  | allMarkers
  | marker (name : String)
  | gate (gate : StandardGate)
  | gateName (name : String)
  | custom (name : String)
  deriving DecidableEq, Repr

namespace IgnoreRule

/-- Equality of rules, in which gates are compared as gates. -/
def beq : IgnoreRule → IgnoreRule → Bool
  | gate g, gate h => g == h
  | gate _, _ => false
  | r, s => decide (r = s)

instance : BEq IgnoreRule := ⟨beq⟩

def matchesAction : IgnoreRule → Action → Bool
  | allNoise, .noise _ => true
  | allMarkers, .marker _ => true
  | noise name, .noise channel => channel.name == name
  | marker name, .marker a => a.name == name
  | gate g, .gate (.standard h) => h == g
  | gateName name, .gate g => g.name == name
  | custom name, .gate (.custom g) => g.name == name
  | _, _ => false

/-- Whether the rule drops the operation. Nested circuits are never dropped whole. -/
def matchesOperation (r : IgnoreRule) : Operation → Bool
  | .act a _ => r.matchesAction a
  | .subcircuit .. => false

end IgnoreRule

structure IgnorePolicy where
  rules : List IgnoreRule

namespace IgnorePolicy

/-- Noise and markers are always dropped. -/
def standard : IgnorePolicy := ⟨[.allNoise, .allMarkers]⟩

def add (p : IgnorePolicy) (r : IgnoreRule) : IgnorePolicy :=
  if p.rules.any (· == r) then p else ⟨p.rules ++ [r]⟩

def withRules (rules : List IgnoreRule) : IgnorePolicy := rules.foldl add standard

def ignoresAction (p : IgnorePolicy) (a : Action) : Bool := p.rules.any (·.matchesAction a)

def ignores (p : IgnorePolicy) (op : Operation) : Bool := p.rules.any (·.matchesOperation op)

theorem ignores_act (p : IgnorePolicy) (a : Action) (qs : List Qubit) :
    p.ignores (.act a qs) = p.ignoresAction a := rfl

end IgnorePolicy

structure LineFilter where
  starts : List String
  deriving DecidableEq, Repr

namespace LineFilter

/-- Whether a line start could be that of a barrier: it is empty, or the word `B` alone or
with blank space behind it. -/
def couldStartBarrier (start : String) : Bool :=
  match start.toList with
  | [] => true
  | 'B' :: cs => cs.head?.all isBlank
  | _ => false

def barrierStart? (starts : List String) : Option String := starts.find? couldStartBarrier

/-- A filter, or the line start that it must not have. -/
def make (starts : List String) : Except String LineFilter :=
  match barrierStart? starts with
  | some start => .error start
  | none => .ok ⟨starts⟩

/-- Whether the line, without the blank space around it, starts with one of the texts. -/
def ignores (f : LineFilter) (line : String) : Bool :=
  let cs := stripWhile isBlank line.toList
  f.starts.any fun start => start.toList.isPrefixOf cs

end LineFilter
end PulseScript
