import Std.Data.ExtTreeMap

/-!
Couplers: named resources that join two labels. The registry keeps the pair of every
name, and an index from unordered pairs to the smallest name that joins them. The index
is kept up to date when a new name comes in, and built anew when a name changes its pair.
-/
namespace PulseScript

/-- Two labels in increasing order, so that both orders of a pair have one key. -/
structure LabelPair where
  first : String
  second : String
  deriving DecidableEq, Repr

namespace LabelPair

instance : Ord LabelPair := ⟨compareLex (compareOn first) (compareOn second)⟩

instance : Std.TransOrd LabelPair :=
  inferInstanceAs (Std.TransCmp (compareLex (compareOn first) (compareOn second)))

instance : Std.LawfulEqOrd LabelPair where
  eq_of_compare {p q} h := by
    have hl : compareLex (compareOn first) (compareOn second) p q = .eq := h
    rw [compareLex_eq_eq] at hl
    have h1 : p.first = q.first := Std.LawfulEqOrd.eq_of_compare hl.1
    have h2 : p.second = q.second := Std.LawfulEqOrd.eq_of_compare hl.2
    cases p; cases q; simp_all

/-- The key of a pair in either order. -/
def of (a b : String) : LabelPair := if a ≤ b then ⟨a, b⟩ else ⟨b, a⟩

end LabelPair

structure CouplerRegistry where
  pairs : Std.ExtTreeMap String (String × String)
  index : Std.ExtTreeMap LabelPair String
  deriving DecidableEq

namespace CouplerRegistry

def empty : CouplerRegistry := ⟨∅, ∅⟩

/-- The index of a list of couplers in the order of their names: the first name of a pair
stays. -/
def indexOf (entries : List (String × (String × String))) : Std.ExtTreeMap LabelPair String :=
  entries.foldl (fun index e => index.insertIfNew (.of e.2.1 e.2.2) e.1) ∅

/-- The registry of a map from names to pairs. -/
def ofPairs (pairs : Std.ExtTreeMap String (String × String)) : CouplerRegistry :=
  ⟨pairs, indexOf pairs.toList⟩

/-- Enters a coupler, or gives a known one another pair. -/
def insert (r : CouplerRegistry) (name a b : String) : CouplerRegistry :=
  let pairs := r.pairs.insert name (a, b)
  if r.pairs.contains name then ofPairs pairs
  else
    let key := LabelPair.of a b
    match r.index[key]? with
    | some known =>
      if known ≤ name then ⟨pairs, r.index⟩ else ⟨pairs, r.index.insert key name⟩
    | none => ⟨pairs, r.index.insert key name⟩

def ofList (entries : List (String × (String × String))) : CouplerRegistry :=
  entries.foldl (fun r e => r.insert e.1 e.2.1 e.2.2) empty

/-- The smallest name of a coupler that joins the labels, in either order. -/
def nameFor? (r : CouplerRegistry) (a b : String) : Option String := r.index[LabelPair.of a b]?

/-- The labels that a coupler joins, in the order in which they were given. -/
def pairFor? (r : CouplerRegistry) (name : String) : Option (String × String) := r.pairs[name]?

def size (r : CouplerRegistry) : Nat := r.pairs.size

def isEmpty (r : CouplerRegistry) : Bool := r.pairs.isEmpty

/-- The couplers in the order of their names. -/
def toList (r : CouplerRegistry) : List (String × (String × String)) := r.pairs.toList

end CouplerRegistry
end PulseScript
