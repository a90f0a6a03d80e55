import PulseScript.Script.Emission

/-!
The script of a circuit, written line by line. The text only grows, and a nested circuit is run
again for each repetition. A moment is closed already if something has been written behind its own
lines and the last of that is a barrier.
-/
namespace PulseScript

structure Output where
  text : String
  numLines : Nat
  endsWithBarrier : Bool

namespace Output

def empty : Output := ⟨"", 0, false⟩

def writeLine (o : Output) (line : String) : Output :=
  ⟨o.text ++ line ++ "\n", o.numLines + 1, false⟩

def writeBarrier (o : Output) (barrier : String) : Output :=
  ⟨o.text ++ barrier ++ "\n", o.numLines + 1, true⟩

/-- The script, which is one empty line if nothing was written. -/
def finish (o : Output) : String := if o.text.isEmpty then "\n" else o.text

end Output

abbrev Writer := Output → Except ScriptError Output

def Writer.times (w : Writer) : Nat → Writer
  | 0, o => .ok o
  | n + 1, o => do w.times n (← w o)

/-- What the operations of a moment have in store. Each kind is written in an order of its own,
when all operations have been seen. -/
structure Pending where
  entries : List (String × List String)
  measured : List String
  nested : List (String × Nat × Writer)

namespace Pending

def empty : Pending := ⟨[], [], []⟩

def addPart (p : Pending) (part : Part) : Pending :=
  { p with entries := p.entries ++ part.entry?.toList, measured := p.measured ++ part.labels }

def addNested (p : Pending) (key : String) (repetitions : Nat) (w : Writer) : Pending :=
  { p with nested := p.nested ++ [(key, repetitions, w)] }

def writeEntries (p : Pending) (o : Output) : Output :=
  ((sortByKey p.entries).flatMap (·.2)).foldl .writeLine o

def writeMeasured (p : Pending) (o : Output) : Output :=
  if p.measured.isEmpty then o
  else o.writeLine (Mnemonic.measure.text ++ " " ++ " ".intercalate p.measured.mergeSort)

def write (p : Pending) (barrier : String) : Writer := fun o => do
  let own := p.writeMeasured (p.writeEntries o)
  let all ← (sortByKey p.nested).foldlM (fun o x => x.2.2.times x.2.1 o) own
  -- the last barrier of a nested circuit closes this moment too
  return if own.numLines < all.numLines && all.endsWithBarrier then all
    else all.writeBarrier barrier

end Pending

mutual
def collectOperation (t : Target) : Operation → Pending → Except ScriptError Pending
  | .act a qs, p => do return p.addPart (← t.actionPart a qs)
  | .subcircuit ⟨ms⟩ n qs, p => do
    return p.addNested (← t.smallestLabel qs) n.toNat (writeMoments t ms)

def collectOperations (t : Target) : List Operation → Pending → Except ScriptError Pending
  | [], p => .ok p
  | op :: ops, p => do collectOperations t ops (← collectOperation t op p)

def writeMoments (t : Target) : List Moment → Writer
  | [], o => .ok o
  | ⟨ops⟩ :: ms, o => do
    let p ← collectOperations t ops .empty
    writeMoments t ms (← p.write t.barrier o)
end

/-- The script of the circuit, written from the first line to the last. -/
def Circuit.writeScript (t : Target) (c : Circuit) : Except ScriptError String :=
  if t.agents.isEmpty then .error .noAgents
  else if t.couplers.isNone && c.needsCouplers t.policy then .error .missingCouplers
  else (writeMoments t c.moments .empty).map Output.finish

end PulseScript
