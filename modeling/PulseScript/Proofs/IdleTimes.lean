import Mathlib
import PulseScript.Proofs.ExactArithmetic
import PulseScript.Script.Context

/-!
# Idle times

The time of a sequence is divided into equal slots of whole nanoseconds, one for each pulse, and
what the pulse leaves of its slot is idle time, half of it on either side. The check of a sequence
compares all pulses with the whole time and not one pulse with its slot. Where a pulse takes whole
nanoseconds this comes to the same, and the schedule fits and is at most one nanosecond for each
pulse short. Where it does not, a pulse can be longer than its slot: then the idle time is half a
nanosecond below zero, and is written as zero.
-/
namespace PulseScript
namespace Decoupling

open Binary64 (OnGrid Rounds AtLeast limit)

variable {d : Decoupling} {T p : ℚ}

structure Fits (d : Decoupling) (T p : ℚ) : Prop where
  total : d.total.value? = some T
  pulse : d.pulse.value? = some p
  count_pos : 0 < d.numPulses
  count_le : d.numPulses ≤ maxPulses
  pulse_pos : 0 < p
  room : d.numPulses * p < T

theorem numPulses_le (hcount : d.numPulses ≤ maxPulses) : d.numPulses ≤ 2 ^ 53 :=
  hcount.trans (by decide)

/-- The product in the check is rounded, but not past the total duration. -/
theorem exists_fits (h : d.validate = .ok ()) : ∃ T p, d.Fits T p := by
  unfold validate at h
  simp only at h
  split_ifs at h with hpos hmax hbad hlong
  obtain ⟨⟨hT, hp⟩, hzero⟩ : (d.total.isFinite = true ∧ d.pulse.isFinite = true) ∧
      d.pulse.le (.zero false) = false := by simpa using hbad
  have hvalue : ∀ x : Binary64, x.isFinite = true → ∃ v, x.value? = some v := by
    intro x hx
    cases x with
    | finite s m e hc => exact ⟨_, rfl⟩
    | _ => exact absurd hx (by simp [Binary64.isFinite])
  obtain ⟨T, hT⟩ := hvalue _ hT
  obtain ⟨p, hp⟩ := hvalue _ hp
  have hcount : d.numPulses ≤ maxPulses := not_lt.mp hmax
  refine ⟨T, p, hT, hp, by omega, hcount, ?_, ?_⟩
  · have hle := Binary64.le_iff hp (Binary64.value_zero false)
    exact not_le.mp (mt hle.mpr (by simp [hzero]))
  · by_contra hroom
    have hround := Binary64.rounds_mul (Binary64.value_ofNat (numPulses_le hcount)) hp
    have hlow := (abs_lt.mp (Binary64.abs_lt_limit_of_value hT)).1
    have hleast := hround.atLeast T (Binary64.onGrid_of_value hT) hlow (not_lt.mp hroom)
    exact hlong (Binary64.le_of_atLeast hT hleast)

namespace Fits

/-- A slot before it is cut down to whole nanoseconds. -/
theorem rounds_slot (h : d.Fits T p) :
    Rounds (T / d.numPulses) (d.total / Binary64.ofNat d.numPulses) :=
  Binary64.rounds_div h.total (Binary64.value_ofNat (numPulses_le h.count_le))
    (Nat.cast_ne_zero.mpr h.count_pos.ne')

theorem pulse_lt (h : d.Fits T p) : p < T / d.numPulses := by
  rw [lt_div_iff₀ (Nat.cast_pos.mpr h.count_pos), mul_comm]
  exact h.room

theorem total_pos (h : d.Fits T p) : 0 < T :=
  (mul_pos (Nat.cast_pos.mpr h.count_pos) h.pulse_pos).trans h.room

/-- A pulse is no longer than a slot that is not cut down yet. -/
theorem exists_slot (h : d.Fits T p) :
    ∃ q, (d.total / Binary64.ofNat d.numPulses).value? = some q ∧ p ≤ q := by
  have hn : (1 : ℚ) ≤ d.numPulses := by exact_mod_cast h.count_pos
  have hlow := (abs_lt.mp (Binary64.abs_lt_limit_of_value h.pulse)).1
  have hhigh := (abs_lt.mp (Binary64.abs_lt_limit_of_value h.total)).2
  obtain ⟨q, hq, hpq, -⟩ := h.rounds_slot.exists_value (Binary64.onGrid_of_value h.pulse)
    (Binary64.onGrid_of_value h.total) hlow hhigh h.pulse_lt.le (div_le_self h.total_pos.le hn)
  exact ⟨q, hq, hpq⟩

end Fits

/-- The slot of a pulse in nanoseconds, what the pulse leaves of it, and the idle time, which is
half of that in whole nanoseconds. -/
structure Spaced (d : Decoupling) (slot : Int) (gap : ℚ) : Prop where
  slot_value : (d.total / Binary64.ofNat d.numPulses).floor.value? = some (slot : ℚ)
  gap_value : ((d.total / Binary64.ofNat d.numPulses).floor - d.pulse).value? = some gap
  idle_value : d.idle.value? = some ((⌊gap⌋ : ℚ) / 2)

theorem Fits.exists_spaced (h : d.Fits T p) {q : ℚ}
    (hq : (d.total / Binary64.ofNat d.numPulses).value? = some q) (hpq : p ≤ q) :
    ∃ gap, d.Spaced ⌊q⌋ gap ∧ -1 ≤ gap := by
  have hslot := Binary64.value_floor hq
  have hround := Binary64.rounds_sub hslot h.pulse
  have hone : |((-1 : Int) : ℚ)| < limit := Binary64.abs_intCast_lt_limit (by norm_num)
  have hgrid : OnGrid ((-1 : Int) : ℚ) := .intCast (by norm_num)
  have hlt := Int.lt_floor_add_one q
  obtain ⟨gap, hgap, hlow, -⟩ := hround.exists_value hgrid (Binary64.onGrid_of_value hslot)
    (abs_lt.mp hone).1 (abs_lt.mp (Binary64.abs_lt_limit_of_value hslot)).2
    (by push_cast; linarith) (by linarith [h.pulse_pos])
  refine ⟨gap, ⟨hslot, hgap, ?_⟩, by simpa using hlow⟩
  have hfloor := Binary64.value_floor hgap
  have hhalf := Binary64.rounds_div hfloor (Binary64.value_ofNat (show 2 ≤ 2 ^ 53 by norm_num))
    (by norm_num)
  refine hhalf.value_eq (by simpa using (Binary64.onGrid_of_value hfloor).half) ?_
  have hsmaller : |(⌊gap⌋ : ℚ) / (2 : Nat)| ≤ |(⌊gap⌋ : ℚ)| := by
    rw [abs_div, Nat.cast_ofNat, abs_two]
    exact div_le_self (abs_nonneg _) (by norm_num)
  exact hsmaller.trans_lt (Binary64.abs_lt_limit_of_value hfloor)

namespace Spaced

variable {slot : Int} {gap : ℚ}

/-- The written idle times are the whole parts of the idle time and of its double, from zero on and
as far as machine words go. -/
theorem written (h : d.Spaced slot gap) :
    d.edgeIdle.toNat = min (⌊gap⌋ / 2).toNat (UInt64.size - 1) ∧
      d.middleIdle.toNat = min ⌊gap⌋.toNat (UInt64.size - 1) := by
  have hfloor := Binary64.value_floor h.gap_value
  constructor
  · have hhalf : ⌊(⌊gap⌋ : ℚ) / 2⌋ = ⌊gap⌋ / 2 := by
      exact_mod_cast Rat.floor_intCast_div_natCast ⌊gap⌋ 2
    rw [edgeIdle, Binary64.toNat_toWord_truncate h.idle_value, hhalf]
  · have hdouble := Binary64.rounds_mul
      (Binary64.value_ofNat (show 2 ≤ 2 ^ 53 by norm_num)) h.idle_value
    rw [Nat.cast_ofNat, mul_div_cancel₀ _ two_ne_zero] at hdouble
    have hvalue := hdouble.value_eq (Binary64.onGrid_of_value hfloor)
      (Binary64.abs_lt_limit_of_value hfloor)
    rw [middleIdle, Binary64.toNat_toWord_truncate hvalue, Int.floor_intCast]

/-- The idle time is not negative exactly if the pulse is not longer than its slot. -/
theorem nonneg_iff (h : d.Spaced slot gap) (hp : d.pulse.value? = some p) :
    0 ≤ ⌊gap⌋ ↔ p ≤ slot := by
  rw [Int.floor_nonneg, Binary64.nonneg_sub_iff h.slot_value hp h.gap_value]

end Spaced

/-- A pulse that is not longer than the exact slot in whole nanoseconds is not longer than the
rounded one. -/
theorem Fits.le_floor (h : d.Fits T p) {q : ℚ}
    (hq : (d.total / Binary64.ofNat d.numPulses).value? = some q)
    (hle : p ≤ ⌊T / d.numPulses⌋) : p ≤ ⌊q⌋ := by
  -- the next whole number above the pulse has the format too, so the quotient is not below it
  have hceil := Binary64.value_floor (Binary64.value?_neg h.pulse)
  rw [Int.floor_neg, Int.cast_neg] at hceil
  have hgrid : OnGrid (⌈p⌉ : ℚ) := by simpa using (Binary64.onGrid_of_value hceil).neg
  have hlow := (abs_lt.mp (Binary64.abs_lt_limit_of_value hceil)).2
  have hexact : (⌈p⌉ : ℚ) ≤ T / d.numPulses := by
    have hint : ⌈p⌉ ≤ ⌊T / d.numPulses⌋ := Int.ceil_le.mpr hle
    exact (Int.cast_le.mpr hint).trans (Int.floor_le _)
  have hleast := h.rounds_slot.atLeast _ hgrid (by linarith) hexact
  have hround : ⌈p⌉ ≤ ⌊q⌋ := Int.le_floor.mpr ((Binary64.atLeast_iff_of_value hq).mp hleast)
  exact (Int.le_ceil p).trans (Int.cast_le.mpr hround)

/-- The idle time of a valid sequence is a whole number of halves of a nanosecond, not less than
minus one. It is not negative exactly if the pulse is not longer than its slot, so not for any pulse
that fits into the exact slot in whole nanoseconds. Where it is negative, it is written as zero. -/
theorem idle_of_valid (d : Decoupling) (h : d.validate = .ok ()) :
    ∃ T p, d.total.value? = some T ∧ d.pulse.value? = some p ∧ ∃ slot k : Int,
      (d.total / Binary64.ofNat d.numPulses).floor.value? = some (slot : ℚ) ∧
      d.idle.value? = some ((k : ℚ) / 2) ∧ -1 ≤ k ∧ (0 ≤ k ↔ p ≤ slot) ∧
      (p ≤ ⌊T / d.numPulses⌋ → 0 ≤ k) ∧ (k < 0 → d.edgeIdle = 0 ∧ d.middleIdle = 0) := by
  obtain ⟨T, p, hfits⟩ := exists_fits h
  obtain ⟨q, hq, hpq⟩ := hfits.exists_slot
  obtain ⟨gap, hspaced, hgap⟩ := hfits.exists_spaced hq hpq
  have hnonneg := hspaced.nonneg_iff hfits.pulse
  obtain ⟨hedge, hmiddle⟩ := hspaced.written
  refine ⟨T, p, hfits.total, hfits.pulse, ⌊q⌋, ⌊gap⌋, hspaced.slot_value, hspaced.idle_value,
    Int.le_floor.mpr (by simpa using hgap), hnonneg, fun hle => hnonneg.mpr (hfits.le_floor hq hle),
    fun hneg => ?_⟩
  have hhalf : ⌊gap⌋ / 2 ≤ 0 := by omega
  rw [Int.toNat_of_nonpos hhalf, Nat.zero_min] at hedge
  rw [Int.toNat_of_nonpos hneg.le, Nat.zero_min] at hmiddle
  exact ⟨UInt64.toNat_inj.mp hedge, UInt64.toNat_inj.mp hmiddle⟩

def microsecond : Decoupling := ⟨.xyyx, 2, .ofNat 1000, .ofNat 50⟩

theorem numPulses_microsecond : microsecond.numPulses = 8 := rfl

theorem values_microsecond : microsecond.total.value? = some ((1000 : Int) : ℚ) ∧
    microsecond.pulse.value? = some ((50 : Int) : ℚ) :=
  ⟨Binary64.value_ofNat (show 1000 ≤ 2 ^ 53 by norm_num),
    Binary64.value_ofNat (show 50 ≤ 2 ^ 53 by norm_num)⟩

theorem idle_microsecond :
    microsecond.validate = .ok () ∧ ∃ k : Int, microsecond.idle.value? = some ((k : ℚ) / 2) ∧ 0 ≤ k := by
  have hvalid : microsecond.validate = .ok () := by decide +kernel
  obtain ⟨T, p, hT, hp, slot, k, -, hidle, -, -, hnonneg, -⟩ := idle_of_valid microsecond hvalid
  obtain rfl := Option.some.inj (values_microsecond.1.symm.trans hT)
  obtain rfl := Option.some.inj (values_microsecond.2.symm.trans hp)
  refine ⟨hvalid, k, hidle, hnonneg ?_⟩
  rw [numPulses_microsecond]
  norm_num

def tightPair : Decoupling :=
  ⟨.cpmg .x, 1, .finite false 7283165022388224 (-46) (by decide),
    .finite false 7247980650299392 (-47) (by decide)⟩

/-- Both pulses fit into the whole time, but neither into its slot. -/
theorem idle_tightPair :
    tightPair.total.value? = some (207 / 2) ∧ tightPair.pulse.value? = some (103 / 2) ∧
      tightPair.validate = .ok () ∧ tightPair.idle.value? = some (-1 / 2) ∧
      tightPair.expand "Q00" = ["I Q00 0", "X Q00", "I Q00 0", "X Q00", "I Q00 0"] := by
  have hidle : tightPair.idle = .finite true 4503599627370496 (-53) (by decide) := by decide +kernel
  refine ⟨?_, ?_, by decide +kernel, ?_, by decide +kernel⟩
  · norm_num [tightPair, Binary64.value?, Binary64.rational]
  · norm_num [tightPair, Binary64.value?, Binary64.rational]
  · rw [hidle]
    norm_num [Binary64.value?, Binary64.rational]

theorem length_pulses (d : Decoupling) : d.pulses.length = d.numPulses := by
  obtain ⟨pattern, n, total, pulse⟩ := d
  cases pattern <;> simp [pulses, numPulses, DecouplingPattern.pulsesPerRepeat] <;> ring

/-- Where all durations are whole, the slot is that of exact division and the pulse leaves a whole
number of nanoseconds of it, which is not negative. -/
theorem Fits.spaced_of_whole {T p : Int} (h : d.Fits T p) (hlong : T < 2 ^ 52) :
    p ≤ T / d.numPulses ∧ d.Spaced (T / d.numPulses) ((T / d.numPulses - p : Int) : ℚ) := by
  obtain ⟨q, hq, hpq⟩ := h.exists_slot
  obtain ⟨gap, hspaced, -⟩ := h.exists_spaced hq hpq
  have hp : 0 < p := by exact_mod_cast h.pulse_pos
  have hT : 0 ≤ T := by exact_mod_cast h.total_pos.le
  have hfloor := Binary64.floor_of_rounds_div h.count_pos (h.count_le.trans (by decide)) hT hlong
    h.rounds_slot hq
  have hle : p ≤ T / d.numPulses := hfloor ▸ Int.le_floor.mpr hpq
  have hkT : T / d.numPulses ≤ T := Int.ediv_le_self _ hT
  rw [hfloor] at hspaced
  generalize T / (d.numPulses : Int) = k at hle hkT hspaced ⊢
  have hbits : |k - p| ≤ 2 ^ 53 := by rw [abs_of_nonneg (by omega)]; omega
  have hround := Binary64.rounds_sub hspaced.slot_value h.pulse
  rw [← Int.cast_sub] at hround
  have hexact := hround.value_eq (.intCast hbits) (Binary64.abs_intCast_lt_limit hbits)
  obtain rfl := Option.some.inj (hspaced.gap_value.symm.trans hexact)
  exact ⟨hle, hspaced⟩

/-- The written idle times of whole durations are what the pulse leaves of its slot, and half of
it. -/
theorem Fits.written_of_whole {T p : Int} (h : d.Fits T p) (hlong : T < 2 ^ 52) :
    (d.edgeIdle.toNat : Int) = (T / d.numPulses - p) / 2 ∧
      (d.middleIdle.toNat : Int) = T / d.numPulses - p := by
  obtain ⟨hle, hspaced⟩ := h.spaced_of_whole hlong
  obtain ⟨hedge, hmiddle⟩ := hspaced.written
  rw [Int.floor_intCast] at hedge hmiddle
  have hp : 0 < p := by exact_mod_cast h.pulse_pos
  have hT : 0 ≤ T := by exact_mod_cast h.total_pos.le
  have hkT : T / d.numPulses ≤ T := Int.ediv_le_self _ hT
  have hsize : UInt64.size = 2 ^ 64 := rfl
  rw [hedge, hmiddle]
  generalize T / (d.numPulses : Int) = k at hle hkT
  omega

/-- A sequence is played as idle time, pulses with idle time between them, and idle time. If its
durations are whole nanoseconds, the idle time is not negative, all this fits into the total duration
and falls short of it by one nanosecond for each pulse at most, and between two pulses there is twice
the time of an end, or one nanosecond more. -/
theorem expand_fills (d : Decoupling) (h : d.validate = .ok ()) (T p : Int)
    (hT : d.total.value? = some (T : ℚ)) (hp : d.pulse.value? = some (p : ℚ)) (hlong : T < 2 ^ 52)
    (label : String) :
    ∃ edge middle : UInt64,
      d.expand label = idleLine label edge ::
        ((d.pulses.map (pulseLine label)).intersperse (idleLine label middle) ++
          [idleLine label edge]) ∧
      d.pulses.length = d.numPulses ∧ d.idle.value? = some ((middle.toNat : ℚ) / 2) ∧
      2 * (edge.toNat : Int) + (d.numPulses - 1) * middle.toNat + d.numPulses * p ≤ T ∧
      T - (2 * edge.toNat + (d.numPulses - 1) * middle.toNat + d.numPulses * p) ≤ d.numPulses ∧
      ((middle.toNat : Int) - 2 * edge.toNat = 0 ∨ (middle.toNat : Int) - 2 * edge.toNat = 1) := by
  obtain ⟨T', p', hfits⟩ := exists_fits h
  obtain rfl := Option.some.inj (hT.symm.trans hfits.total)
  obtain rfl := Option.some.inj (hp.symm.trans hfits.pulse)
  obtain ⟨hle, hspaced⟩ := hfits.spaced_of_whole hlong
  obtain ⟨hedge, hmiddle⟩ := hfits.written_of_whole hlong
  have hidle := hspaced.idle_value
  rw [Int.floor_intCast, ← hmiddle, Int.cast_natCast] at hidle
  refine ⟨d.edgeIdle, d.middleIdle, rfl, d.length_pulses, hidle, ?_⟩
  rw [hedge, hmiddle]
  have hn : (0 : Int) < d.numPulses := by exact_mod_cast hfits.count_pos
  have hfill : T / d.numPulses * d.numPulses ≤ T := Int.ediv_mul_le T hn.ne'
  have hshort : T < (T / d.numPulses + 1) * d.numPulses := Int.lt_ediv_add_one_mul_self T hn
  generalize T / (d.numPulses : Int) = k at hle hfill hshort
  have hsum : ((d.numPulses : Int) - 1) * (k - p) + d.numPulses * p = k * d.numPulses - (k - p) := by
    ring
  rw [add_mul] at hshort
  refine ⟨?_, ?_, ?_⟩ <;> omega

/-- The slots of a microsecond are 125 nanoseconds each, and all idle time is 599 of 600. -/
theorem expand_fills_microsecond : ∃ edge middle : UInt64,
    microsecond.expand "Q00" = idleLine "Q00" edge ::
      ((microsecond.pulses.map (pulseLine "Q00")).intersperse (idleLine "Q00" middle) ++
        [idleLine "Q00" edge]) ∧
    2 * (edge.toNat : Int) + 7 * middle.toNat + 400 ≤ 1000 ∧
    1000 - (2 * edge.toNat + 7 * middle.toNat + 400) ≤ (8 : Int) := by
  obtain ⟨htotal, hpulse⟩ := values_microsecond
  obtain ⟨edge, middle, hlines, -, -, hfits, hfills, -⟩ := expand_fills microsecond (by decide +kernel)
    1000 50 htotal hpulse (by norm_num) "Q00"
  rw [numPulses_microsecond] at hfits hfills
  norm_num at hfits hfills
  exact ⟨edge, middle, hlines, by omega, by omega⟩

end Decoupling
end PulseScript
