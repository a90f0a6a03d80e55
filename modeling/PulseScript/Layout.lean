import Std.Data.ExtTreeMap
import PulseScript.Qubit

/-!
Layouts: which label of the hardware stands for which qubit. A layout keeps both
directions, and a new entry takes the place of whatever spoke for its qubit or for its
label before.
-/
namespace PulseScript

structure LabelLayout where
  labels : Std.ExtTreeMap Qubit String
  qubits : Std.ExtTreeMap String Qubit
  deriving DecidableEq

namespace LabelLayout

def empty : LabelLayout := ⟨∅, ∅⟩

/-- The labels without the one of the qubit that had this label before. -/
def freeLabel (l : LabelLayout) (q : Qubit) (label : String) : Std.ExtTreeMap Qubit String :=
  match l.qubits[label]? with
  | some old => if old = q then l.labels else l.labels.erase old
  | none => l.labels

/-- The qubits without the one that had the label of this qubit before. -/
def freeQubit (l : LabelLayout) (q : Qubit) (label : String) : Std.ExtTreeMap String Qubit :=
  match l.labels[q]? with
  | some old => if old = label then l.qubits else l.qubits.erase old
  | none => l.qubits

/-- Lets a qubit and a label stand for each other and for nothing else. -/
def add (l : LabelLayout) (q : Qubit) (label : String) : LabelLayout :=
  ⟨(l.freeLabel q label).insert q label, (l.freeQubit q label).insert label q⟩

def ofList (entries : List (Qubit × String)) : LabelLayout :=
  entries.foldl (fun l e => l.add e.1 e.2) empty

/-- The label `Q` with the index in two digits or more. -/
def sequentialLabel (n : Nat) : String :=
  String.ofList ('Q' :: List.replicate (2 - (decimalDigits n).length) '0' ++ decimalDigits n)

def sequential (n : UInt32) : LabelLayout :=
  ofList ((List.range n.toNat).map fun i => (⟨UInt32.ofNat i⟩, sequentialLabel i))

def labelOf? (l : LabelLayout) (q : Qubit) : Option String := l.labels[q]?

def qubitOf? (l : LabelLayout) (label : String) : Option Qubit := l.qubits[label]?

def size (l : LabelLayout) : Nat := l.labels.size

def isEmpty (l : LabelLayout) : Bool := l.labels.isEmpty

/-- The entries in the order of the qubits. -/
def toList (l : LabelLayout) : List (Qubit × String) := l.labels.toList

end LabelLayout
end PulseScript
