import Std.Data.ExtTreeMap
import PulseScript.Binary64.Text

/-!
Noise channels and markers. Neither has an instruction on hardware.
-/
namespace PulseScript

inductive NoiseChannel where
  | depolarizing (p : Binary64)
  | asymmetricDepolarizing (px py pz : Binary64)
  | amplitudeDamping (gamma : Binary64)
  | phaseDamping (gamma : Binary64)
  | bitFlip (p : Binary64)
  | phaseFlip (p : Binary64)
  | custom (name : String) (params : Std.ExtTreeMap String Binary64)

namespace NoiseChannel

def name : NoiseChannel → String
  | depolarizing _ => "depolarizing"
  | asymmetricDepolarizing .. => "asymmetric_depolarizing"
  | amplitudeDamping _ => "amplitude_damping"
  | phaseDamping _ => "phase_damping"
  | bitFlip _ => "bit_flip"
  | phaseFlip _ => "phase_flip"
  | custom name _ => name

/-- The channel with its numbers to four places. -/
def text : NoiseChannel → String
  | depolarizing p => "depolarizing(p=" ++ p.fixed 4 ++ ")"
  | asymmetricDepolarizing x y z =>
    "asymmetric_depolarizing(" ++ x.fixed 4 ++ ", " ++ y.fixed 4 ++ ", " ++ z.fixed 4 ++ ")"
  | amplitudeDamping g => "amplitude_damping(γ=" ++ g.fixed 4 ++ ")"
  | phaseDamping g => "phase_damping(γ=" ++ g.fixed 4 ++ ")"
  | bitFlip p => "bit_flip(p=" ++ p.fixed 4 ++ ")"
  | phaseFlip p => "phase_flip(p=" ++ p.fixed 4 ++ ")"
  | custom name _ => "custom(" ++ name ++ ")"

/-- Equality of channels, in which numbers are compared as such. -/
def beq : NoiseChannel → NoiseChannel → Bool
  | depolarizing p, depolarizing q => p == q
  | asymmetricDepolarizing a b c, asymmetricDepolarizing x y z => a == x && b == y && c == z
  | amplitudeDamping g, amplitudeDamping h => g == h
  | phaseDamping g, phaseDamping h => g == h
  | bitFlip p, bitFlip q => p == q
  | phaseFlip p, phaseFlip q => p == q
  | custom m ps, custom n qs => m == n && ps.toList == qs.toList
  | _, _ => false

instance : BEq NoiseChannel := ⟨beq⟩

end NoiseChannel

inductive Marker where
  | detector (coords : List Binary64)
  | observable (index : UInt32)
  | shiftCoords (shift : List Binary64)
  deriving DecidableEq, Repr

namespace Marker

def name : Marker → String
  | detector _ => "detector"
  | observable _ => "observable"
  | shiftCoords _ => "shift_coords"

def beq : Marker → Marker → Bool
  | detector xs, detector ys => xs == ys
  | observable i, observable j => i == j
  | shiftCoords xs, shiftCoords ys => xs == ys
  | _, _ => false

instance : BEq Marker := ⟨beq⟩

end Marker
end PulseScript
