import PulseScript.Json.Shape
import PulseScript.Noise

/-!
Noise channels and markers as JSON.
-/
namespace PulseScript

namespace NoiseChannel

def toJson : NoiseChannel → Json
  | depolarizing p => .tag "Depolarizing" (.object [("p", .float p)])
  | asymmetricDepolarizing x y z =>
    .tag "AsymmetricDepolarizing" (.object [("p_x", .float x), ("p_y", .float y), ("p_z", .float z)])
  | amplitudeDamping g => .tag "AmplitudeDamping" (.object [("gamma", .float g)])
  | phaseDamping g => .tag "PhaseDamping" (.object [("gamma", .float g)])
  | bitFlip p => .tag "BitFlip" (.object [("p", .float p)])
  | phaseFlip p => .tag "PhaseFlip" (.object [("p", .float p)])
  | custom name params =>
    .tag "Custom" (.object [("name", .string name),
      ("params", .object (params.toList.map fun m => (m.1, .float m.2)))])

def singleNumber? (form : Json.RecordForm) (field : String) (v : Json) : Option Binary64 :=
  match v.taggedFields? form [field] with
  | some [x] => x.number64?
  | _ => none

def ofJson? (form : Json.RecordForm) (v : Json) : Option NoiseChannel :=
  match v.tagged? with
  | some ("Depolarizing", some r) => (singleNumber? form "p" r).map .depolarizing
  | some ("AsymmetricDepolarizing", some r) =>
    match r.taggedFields? form ["p_x", "p_y", "p_z"] with
    | some [x, y, z] => do
      return .asymmetricDepolarizing (← x.number64?) (← y.number64?) (← z.number64?)
    | _ => none
  | some ("AmplitudeDamping", some r) => (singleNumber? form "gamma" r).map .amplitudeDamping
  | some ("PhaseDamping", some r) => (singleNumber? form "gamma" r).map .phaseDamping
  | some ("BitFlip", some r) => (singleNumber? form "p" r).map .bitFlip
  | some ("PhaseFlip", some r) => (singleNumber? form "p" r).map .phaseFlip
  | some ("Custom", some r) =>
    match r.taggedFields? form ["name", "params"] with
    | some [name, params] => do
      return .custom (← name.string?) (.ofList (← params.pairsOf? Json.number64?))
    | _ => none
  | _ => none

end NoiseChannel

namespace Marker

def toJson : Marker → Json
  | detector coords => .tag "Detector" (.object [("coords", .array (coords.map .float))])
  | observable index => .tag "Observable" (.object [("index", .ofWord32 index)])
  | shiftCoords shift => .tag "ShiftCoords" (.object [("shift", .array (shift.map .float))])

def ofJson? (form : Json.RecordForm) (v : Json) : Option Marker :=
  match v.tagged? with
  | some ("Detector", some r) =>
    match r.taggedFields? form ["coords"] with
    | some [coords] => (coords.listOf? Json.number64?).map .detector
    | _ => none
  | some ("Observable", some r) =>
    match r.taggedFields? form ["index"] with
    | some [index] => index.word32?.map .observable
    | _ => none
  | some ("ShiftCoords", some r) =>
    match r.taggedFields? form ["shift"] with
    | some [shift] => (shift.listOf? Json.number64?).map .shiftCoords
    | _ => none
  | _ => none

end Marker
end PulseScript
