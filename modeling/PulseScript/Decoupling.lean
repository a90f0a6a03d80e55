import PulseScript.Binary64.Text

/-!
Dynamical decoupling: a qubit is kept busy for a fixed time with evenly spaced pulses of
half a turn. A sequence is stored by its parameters; what it is played as is computed
from them. Parameters are free until they are validated.
-/
namespace PulseScript

inductive PulseAxis where
  | x | y
  deriving DecidableEq, Repr

def PulseAxis.name : PulseAxis → String
  | x => "X"
  | y => "Y"

/-- Which pulses are played: pairs along one axis, pairs along both axes, or pairs along
both axes followed by as many in the opposite order. -/
inductive DecouplingPattern where
  | cpmg (axis : PulseAxis)
  | xy
  | xyyx
  deriving DecidableEq, Repr

namespace DecouplingPattern

def name : DecouplingPattern → String
  | cpmg _ => "CPMG"
  | xy => "XY"
  | xyyx => "XYYX"

def pulsesPerRepeat : DecouplingPattern → Nat
  | cpmg _ => 2
  | xy => 2
  | xyyx => 4

end DecouplingPattern

/-- The parameters of a sequence, durations in nanoseconds. -/
structure Decoupling where
  pattern : DecouplingPattern
  repeats : UInt32
  total : Binary64
  pulse : Binary64
  deriving DecidableEq, Repr

inductive DecouplingError where
  | noPulses (family : String)
  | tooManyPulses (pulses : Nat)
  | badDurations (total pulse : Binary64)
  | tooLong (pulses : Nat) (pulse total : Binary64)
  deriving DecidableEq, Repr

def maxPulses : Nat := 100000

def DecouplingError.message : DecouplingError → String
  | noPulses family => family ++ " needs at least one pulse"
  | tooManyPulses pulses =>
    natText pulses ++ " pulses exceed the limit of " ++ natText maxPulses
  | badDurations total pulse =>
    "durations must be finite and positive, got total=" ++ total.plain ++ " pulse=" ++ pulse.plain
  | tooLong pulses pulse total =>
    natText pulses ++ " pulses of " ++ pulse.plain ++ "ns exceed the total duration of " ++
      total.plain ++ "ns"

namespace Decoupling

def name (d : Decoupling) : String := d.pattern.name

/-- How many pulses are played. -/
def numPulses (d : Decoupling) : Nat := d.pattern.pulsesPerRepeat * d.repeats.toNat

def pulses (d : Decoupling) : List PulseAxis :=
  let n := d.repeats.toNat
  match d.pattern with
  | .cpmg axis => List.replicate (2 * n) axis
  | .xy => (List.replicate n [.x, .y]).flatten
  | .xyyx => (List.replicate n [.x, .y]).flatten ++ (List.replicate n [.y, .x]).flatten

/-- At least one pulse and not too many, finite durations, and room for the pulses. -/
def validate (d : Decoupling) : Except DecouplingError Unit :=
  let n := d.numPulses
  if n < 1 then .error (.noPulses d.name)
  else if maxPulses < n then .error (.tooManyPulses n)
  else if !d.total.isFinite || !d.pulse.isFinite || d.pulse.le (Binary64.zero false) then
    .error (.badDurations d.total d.pulse)
  else if d.total.le (Binary64.ofNat n * d.pulse) then .error (.tooLong n d.pulse d.total)
  else .ok ()

def defaultPulse : Binary64 := Binary64.ofNat 50

def checked (d : Decoupling) : Except DecouplingError Decoupling := do
  d.validate
  return d

/-- A validated sequence with the default pulse. -/
def make (pattern : DecouplingPattern) (repeats : UInt32) (total : Binary64) :
    Except DecouplingError Decoupling :=
  checked ⟨pattern, repeats, total, defaultPulse⟩

/-- The sequence with pulses of another duration, validated again. -/
def withPulse (d : Decoupling) (pulse : Binary64) : Except DecouplingError Decoupling :=
  checked { d with pulse := pulse }

/-- The idle time before the first pulse and after the last; between two pulses lies
twice as much. The slot of a pulse and the idle time in it are whole numbers. -/
def idle (d : Decoupling) : Binary64 :=
  let slot := (d.total / Binary64.ofNat d.numPulses).floor
  (slot - d.pulse).floor / Binary64.ofNat 2

/-- The short form: the pulses and how often they are played. -/
def text (d : Decoupling) : String :=
  match d.pattern with
  | .cpmg axis => "DD([" ++ axis.name ++ "]*" ++ natText d.numPulses ++ ")"
  | .xy => "DD([X--Y]*" ++ natText d.repeats.toNat ++ ")"
  | .xyyx => "DD([X--Y...Y--X]*" ++ natText d.repeats.toNat ++ ")"

/-- Equality of sequences, in which durations are compared as numbers. -/
def beq (d e : Decoupling) : Bool :=
  d.pattern == e.pattern && d.repeats == e.repeats && d.total == e.total && d.pulse == e.pulse

instance : BEq Decoupling := ⟨beq⟩

end Decoupling
end PulseScript
