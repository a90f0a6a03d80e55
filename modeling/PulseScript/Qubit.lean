import Std.Data.ExtTreeSet
import PulseScript.Text.Numeral

/-!
Qubits are known by number only. The labels of hardware are attached where a circuit
meets a device.
-/
namespace PulseScript

structure Qubit where
  index : UInt32
  deriving DecidableEq, Repr

namespace Qubit

instance : Ord Qubit := ⟨compareOn index⟩

instance : Std.TransOrd Qubit := inferInstanceAs (Std.TransCmp (compareOn index))

instance : Std.LawfulEqOrd Qubit where
  eq_of_compare {a b} h := by
    have hi : a.index = b.index := Std.LawfulEqOrd.eq_of_compare h
    cases a; cases b; simp_all

def text (q : Qubit) : String := "q" ++ natText q.index.toNat

/-- The qubits of a list in increasing order, each once. -/
def sorted (qs : List Qubit) : List Qubit := (Std.ExtTreeSet.ofList qs).toList

/-- The first qubit of a list that stands earlier in the list, or in `seen`. -/
def firstRepeat? (seen : List Qubit) : List Qubit → Option Qubit
  | [] => none
  | q :: qs => if q ∈ seen then some q else firstRepeat? (q :: seen) qs

end Qubit
end PulseScript
