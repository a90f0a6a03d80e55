import PulseScript.Ignore
import PulseScript.Script.Context
import PulseScript.Script.Line

/-!
Reading the statements of a script. The lines are taken one after the other; while a
context block is open they go into the block, and otherwise each is a statement.
-/
namespace PulseScript

/-- A duration: an optional plus sign and digits, with a value of at most 64 bits. -/
def duration? (word : String) : Option UInt64 :=
  let digits := match word.toList with
    | '+' :: cs => cs
    | cs => cs
  match natOfDigits? digits with
  | some n => if n < UInt64.size then some (UInt64.ofNat n) else none
  | none => none

/-- The statement of a mnemonic and its operands, or what is wrong with them. -/
def Statement.ofOperands (m : Mnemonic) (args : List String) : Except MalformedReason Statement :=
  match m.operands, args with
  | .qubit, [qubit] => .ok (.gate m qubit)
  | .qubit, _ => .error .expectedQubit
  | .coupler, [coupler] => .ok (.coupled m coupler)
  | .coupler, _ => .error .expectedCoupler
  | .qubits, [] => .error .expectedQubits
  | .qubits, qubits => .ok (.measure qubits)
  | .agents, [] => .error .expectedAgents
  | .agents, agents => .ok (.barrier agents)
  | .qubitDuration, [qubit, word] =>
    match duration? word with
    | some ns => .ok (.idle qubit ns)
    | none => .error .badDuration
  | .qubitDuration, _ => .error .expectedQubitDuration

def wordsOf (ts : List Token) : List String :=
  ts.filterMap fun
    | .word w => some w
    | .comment _ => none

def SourceLine.instruction (l : SourceLine) (word : String) : Except ScriptError Statement :=
  match Mnemonic.ofText? word with
  | none => .error (.unknownMnemonic l.number word)
  | some m =>
    match Statement.ofOperands m (wordsOf l.rest) with
    | .error reason => .error (.malformed l.number l.text reason)
    | .ok s => .ok s

/-- Whether a filter passes over the line. Without a filter no line is. -/
def isFiltered (filter : Option LineFilter) (l : SourceLine) : Bool :=
  filter.any (·.ignores l.text)

/-- The statement of a line outside context blocks. -/
def SourceLine.statement (filter : Option LineFilter) (l : SourceLine) :
    Except ScriptError Statement :=
  match l.first with
  | .comment text => .ok (.comment text)
  | .word w => if isFiltered filter l then .ok (.ignored l.text) else l.instruction w

/-- A context block whose end is still to come; its body is in reverse. -/
structure OpenBlock where
  start : Nat
  gate : Option String
  targets : Option String
  body : List String
  deriving DecidableEq, Repr

namespace OpenBlock

def begin (start : Nat) : OpenBlock := ⟨start, none, none, []⟩

/-- The block at its end. The header with the gate is missed first. -/
def close (b : OpenBlock) : Except ScriptError ContextBlock :=
  match b.gate, b.targets with
  | none, _ => .error (.invalidContext b.start (.missingHeader .gate))
  | _, none => .error (.invalidContext b.start (.missingHeader .targets))
  | some gate, some targets => .ok ⟨gate, targets, b.body.reverse⟩

/-- A line inside the block that is no marker: a header, of which the last one counts, or
a line of the body. -/
def addLine (b : OpenBlock) (l : SourceLine) : OpenBlock :=
  match l.first with
  | .word _ => { b with body := l.text :: b.body }
  | .comment text =>
    match ContextHeader.gate.content? text with
    | some gate => { b with gate := some gate }
    | none =>
      match ContextHeader.targets.content? text with
      | some targets => { b with targets := some targets }
      | none => { b with body := l.text :: b.body }

end OpenBlock

/-- The statements read so far, last one first, and the context block that is open. -/
structure ReaderState where
  done : List ProgramLine
  openBlock : Option OpenBlock

namespace ReaderState

def start : ReaderState := ⟨[], none⟩

def step (filter : Option LineFilter) (s : ReaderState) (l : SourceLine) :
    Except ScriptError ReaderState :=
  match s.openBlock with
  | none =>
    if l.first = .comment contextStart then .ok ⟨s.done, some (.begin l.number)⟩
    else
      match l.statement filter with
      | .error e => .error e
      | .ok statement => .ok ⟨⟨l.number, statement⟩ :: s.done, none⟩
  | some b =>
    if l.first = .comment contextEnd then
      match b.close with
      | .error e => .error e
      | .ok block => .ok ⟨⟨b.start, .context block⟩ :: s.done, none⟩
    else if l.first = .comment contextStart then .error (.invalidContext l.number .nested)
    else .ok ⟨s.done, some (b.addLine l)⟩

/-- The program at the end of the script, where no block may be open. -/
def finish (s : ReaderState) : Except ScriptError Program :=
  match s.openBlock with
  | none => .ok ⟨s.done.reverse⟩
  | some b => .error (.unterminatedContext b.start)

end ReaderState

namespace Program

def ofLines (filter : Option LineFilter) (ls : List SourceLine) : Except ScriptError Program :=
  match ls.foldlM (ReaderState.step filter) .start with
  | .error e => .error e
  | .ok s => s.finish

def ofText (filter : Option LineFilter) (source : String) : Except ScriptError Program :=
  ofLines filter (sourceLines source)

end Program
end PulseScript
