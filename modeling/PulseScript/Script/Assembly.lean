import PulseScript.Circuit
import PulseScript.Couplers
import PulseScript.Script.Reader

/-!
From statements to a circuit. Operations gather in an open moment until a barrier closes
it; what is left open at the end is closed if it holds anything.
-/
namespace PulseScript

structure Wiring where
  qubitOf? : String → Option Qubit
  couplers : Option CouplerRegistry

/-- The moments closed so far, last one first, and the open moment. -/
structure Assembly where
  closed : List Moment
  current : Moment

namespace Assembly

def start : Assembly := ⟨[], .empty⟩

/-- Closes the open moment, empty or not. -/
def close (s : Assembly) : Assembly := ⟨s.current :: s.closed, .empty⟩

def finish (s : Assembly) : Circuit :=
  let s := if s.current.operations.isEmpty then s else s.close
  ⟨s.closed.reverse⟩

end Assembly

namespace Wiring

def qubit (w : Wiring) (line : Nat) (label : String) : Except ScriptError Qubit :=
  match w.qubitOf? label with
  | some q => .ok q
  | none => .error (.unmappedLabel label line)

def pair (w : Wiring) (coupler : String) : Except ScriptError (String × String) :=
  match w.couplers with
  | none => .error .missingCouplers
  | some registry =>
    match registry.pairFor? coupler with
    | some pair => .ok pair
    | none => .error (.missingCoupler (.named coupler))

end Wiring

def Mnemonic.gateAt (m : Mnemonic) (line : Nat) : Except ScriptError StandardGate :=
  match m.gate? with
  | some g => .ok g
  | none => .error (.malformed line m.text .noGateForm)

/-- An error of building, as one of reading a script. -/
def liftBuild (r : Except BuildError α) : Except ScriptError α :=
  r.mapError .build

/-- The operation of a statement, if it is one. -/
def Statement.operation? (w : Wiring) (line : Nat) :
    Statement → Except ScriptError (Option Operation)
  | .gate m label => do
    let g ← m.gateAt line
    let q ← w.qubit line label
    return some (← liftBuild (Operation.ofGate (.standard g) [q]))
  | .coupled m coupler => do
    let (a, b) ← w.pair coupler
    let g ← m.gateAt line
    let qa ← w.qubit line a
    let qb ← w.qubit line b
    return some (← liftBuild (Operation.ofGate (.standard g) [qa, qb]))
  | .measure labels => do
    let qs ← labels.mapM (w.qubit line)
    return some (← liftBuild (Operation.ofMeasure qs))
  | .idle label ns => do
    let q ← w.qubit line label
    return some (.ofDelay q ns)
  | .context block => do
    let (d, label) ← block.decode line
    let q ← w.qubit line label
    return some (.ofDecoupling d q)
  | .barrier _ => .ok none
  | .comment _ => .ok none
  | .ignored _ => .ok none

namespace Assembly

def step (w : Wiring) (s : Assembly) (l : ProgramLine) : Except ScriptError Assembly :=
  if l.statement.isBarrier then .ok s.close
  else do
    match ← l.statement.operation? w l.number with
    | none => return s
    | some op => return { s with current := ← liftBuild (s.current.push op) }

end Assembly

def Program.assemble (w : Wiring) (p : Program) : Except ScriptError Circuit :=
  match p.lines.foldlM (Assembly.step w) .start with
  | .error e => .error e
  | .ok s => .ok s.finish

/-- The circuit of a script. Without a coupler registry a script that names couplers is
refused before any label is looked at. -/
def Circuit.ofScript (w : Wiring) (filter : Option LineFilter) (source : String) :
    Except ScriptError Circuit := do
  let p ← Program.ofText filter source
  if w.couplers.isNone && p.usesCouplers then throw .missingCouplers
  p.assemble w

end PulseScript
