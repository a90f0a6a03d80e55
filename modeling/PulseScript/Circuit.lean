import PulseScript.Operation

/-!
Building moments and circuits. A moment takes an operation only on qubits that it does
not use yet, and a circuit takes each operation at the earliest moment after all moments
that use one of its qubits.
-/
namespace PulseScript

namespace Moment

def empty : Moment := ⟨[]⟩

/-- Whether an operation of the moment acts on the qubit. -/
def operatesOn (m : Moment) (q : Qubit) : Bool := m.operations.any (·.actsOn q)

/-- Adds an operation at the end, unless one of its qubits is in use. -/
def push (m : Moment) (op : Operation) : Except BuildError Moment :=
  match op.qubits.find? m.operatesOn with
  | some q => .error (.duplicateQubit q op.name)
  | none => .ok ⟨m.operations ++ [op]⟩

def ofOperations (ops : List Operation) : Except BuildError Moment :=
  ops.foldlM push empty

end Moment

namespace Circuit

def empty : Circuit := ⟨[]⟩

def pushMoment (c : Circuit) (m : Moment) : Circuit := ⟨c.moments ++ [m]⟩

/-- How many moments there are up to the last one that uses one of the qubits. -/
def lastUse (qs : List Qubit) : List Moment → Nat
  | [] => 0
  | m :: ms =>
    match lastUse qs ms with
    | 0 => if qs.any m.operatesOn then 1 else 0
    | n + 1 => n + 2

/-- The index of the moment that an operation on these qubits is added to. Without
qubits it joins the last moment. -/
def placement (c : Circuit) (qs : List Qubit) : Nat :=
  match lastUse qs c.moments with
  | 0 => if qs.isEmpty then c.moments.length - 1 else 0
  | n + 1 => n + 1

/-- Adds an operation to the moment at an index, or to a new one behind the last. -/
def pushAt (op : Operation) : Nat → List Moment → Except BuildError (List Moment)
  | _, [] => do return [← Moment.empty.push op]
  | 0, m :: ms => do return (← m.push op) :: ms
  | n + 1, m :: ms => do return m :: (← pushAt op n ms)

/-- Adds an operation at the earliest moment after every moment that uses one of its
qubits. -/
def append (c : Circuit) (op : Operation) : Except BuildError Circuit := do
  return ⟨← pushAt op (c.placement op.qubits) c.moments⟩

def ofOperations (ops : List Operation) : Except BuildError Circuit :=
  ops.foldlM append empty

def x (c : Circuit) (q : Qubit) : Except BuildError Circuit := c.append (.x q)

def y (c : Circuit) (q : Qubit) : Except BuildError Circuit := c.append (.y q)

def rx (c : Circuit) (a : Angle) (q : Qubit) : Except BuildError Circuit := c.append (.rx a q)

def ry (c : Circuit) (a : Angle) (q : Qubit) : Except BuildError Circuit := c.append (.ry a q)

def cz (c : Circuit) (a b : Qubit) : Except BuildError Circuit := do
  c.append (← Operation.cz a b)

def measure (c : Circuit) (qs : List Qubit) : Except BuildError Circuit := do
  c.append (← Operation.ofMeasure qs)

end Circuit
end PulseScript
