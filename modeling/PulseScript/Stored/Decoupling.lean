import PulseScript.Json.Shape
import PulseScript.Decoupling

/-!
Decoupling sequences as JSON. The family is the tag, and each family has its own name for
the repeat count.
-/
namespace PulseScript

namespace PulseAxis

def toJson (axis : PulseAxis) : Json := .string axis.name

def ofJson? (v : Json) : Option PulseAxis :=
  match v.tagged? with
  | some ("X", content) => if Json.isBare content then some .x else none
  | some ("Y", content) => if Json.isBare content then some .y else none
  | _ => none

end PulseAxis

namespace Decoupling

def repeatField : DecouplingPattern → String
  | .cpmg _ => "num_pi_pair"
  | .xy => "num_xy_pair"
  | .xyyx => "num_xyyx_pair"

def totalField : String := "total_duration_ns"

def pulseField : String := "single_pi_gate_duration_ns"

def toJson (d : Decoupling) : Json :=
  let axis := match d.pattern with
    | .cpmg axis => [("pi_gate", axis.toJson)]
    | _ => []
  .tag d.name (.object ([(repeatField d.pattern, .ofWord32 d.repeats),
    (totalField, .float d.total), (pulseField, .float d.pulse)] ++ axis))

/-- A record of the three fields that all families have. -/
def ofRecord? (form : Json.RecordForm) (pattern : DecouplingPattern) (v : Json) :
    Option Decoupling :=
  match v.taggedFields? form [repeatField pattern, totalField, pulseField] with
  | some [repeats, total, pulse] => do
    return ⟨pattern, ← repeats.word32?, ← total.number64?, ← pulse.number64?⟩
  | _ => none

def ofJson? (form : Json.RecordForm) (v : Json) : Option Decoupling :=
  match v.tagged? with
  | some ("CPMG", some r) =>
    match r.taggedFields? form ["num_pi_pair", totalField, pulseField, "pi_gate"] with
    | some [repeats, total, pulse, axis] => do
      return ⟨.cpmg (← PulseAxis.ofJson? axis), ← repeats.word32?, ← total.number64?,
        ← pulse.number64?⟩
    | _ => none
  | some ("XY", some r) => ofRecord? form .xy r
  | some ("XYYX", some r) => ofRecord? form .xyyx r
  | _ => none

end Decoupling
end PulseScript
