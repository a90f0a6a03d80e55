import PulseScript.Json.Reader
import PulseScript.Json.Writer
import PulseScript.Stored.Decoupling
import PulseScript.Script.Error
import PulseScript.Script.Program

/-!
Context blocks. A decoupling sequence is played as many instructions, which a reader could
not tell from single pulses. So they stand between two marker lines, with the sequence and
its label in comment lines before them, and a reader takes the sequence from there.
-/
namespace PulseScript

def contextStart : String := "# CIRQ_CONTEXT_START"

def contextEnd : String := "# CIRQ_CONTEXT_END"

/-- What a header line starts with; the content follows at once. -/
def ContextHeader.opening (h : ContextHeader) : String := h.label ++ " "

def ContextHeader.content? (h : ContextHeader) (comment : String) : Option String :=
  let opening := h.opening.toList
  let cs := comment.toList
  if opening.isPrefixOf cs then some (String.ofList (cs.drop opening.length)) else none

namespace Decoupling

/-- The instruction for one pulse. -/
def pulseMnemonic : PulseAxis → Mnemonic
  | .x => .x
  | .y => .y

def idleLine (label : String) (nanoseconds : UInt64) : String :=
  Mnemonic.idle.text ++ " " ++ label ++ " " ++ natText nanoseconds.toNat

def pulseLine (label : String) (axis : PulseAxis) : String :=
  (pulseMnemonic axis).text ++ " " ++ label

/-- Whole nanoseconds of idle time before the first pulse and after the last. -/
def edgeIdle (d : Decoupling) : UInt64 := d.idle.truncate.toWord

/-- Whole nanoseconds of idle time between two pulses. -/
def middleIdle (d : Decoupling) : UInt64 := (Binary64.ofNat 2 * d.idle).truncate.toWord

/-- The instructions that play the sequence on a label. -/
def expand (d : Decoupling) (label : String) : List String :=
  let edge := idleLine label d.edgeIdle
  let middle := idleLine label d.middleIdle
  edge :: ((d.pulses.map (pulseLine label)).intersperse middle ++ [edge])

def gateContent (d : Decoupling) : String := d.toJson.render

def targetsContent (label : String) : String := (Json.array [.string label]).render

/-- The lines of the block for a sequence, which must be valid. -/
def contextLines (d : Decoupling) (label : String) : Except ScriptError (List String) :=
  match d.validate with
  | .error cause => .error (.build (.invalidDecoupling cause))
  | .ok () =>
    .ok (contextStart :: (ContextHeader.gate.opening ++ d.gateContent) ::
      (ContextHeader.targets.opening ++ targetsContent label) :: (d.expand label ++ [contextEnd]))

end Decoupling

namespace ContextBlock

/-- The sequence that the first header carries, and its validity. -/
def sequence (b : ContextBlock) : Except ContextFault Decoupling :=
  match (Json.ofText? b.gate).bind (Decoupling.ofJson? .namedOrOrdered) with
  | none => .error .unreadableGate
  | some d =>
    match d.validate with
    | .error cause => .error (.invalidGate (.invalidDecoupling cause))
    | .ok () => .ok d

def labels (b : ContextBlock) : Except ContextFault (List String) :=
  match (Json.ofText? b.targets).bind (Json.listOf? Json.string?) with
  | none => .error .unreadableTargets
  | some labels => .ok labels

/-- The sequence and the one label of a block that starts at the given line. -/
def decode (b : ContextBlock) (line : Nat) : Except ScriptError (Decoupling × String) :=
  match b.sequence with
  | .error fault => .error (.invalidContext line fault)
  | .ok d =>
    match b.labels with
    | .error fault => .error (.invalidContext line fault)
    | .ok [label] => .ok (d, label)
    | .ok labels => .error (.invalidContext line (.targetCount d.name labels.length))

end ContextBlock
end PulseScript
