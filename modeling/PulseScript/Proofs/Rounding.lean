import Mathlib
import PulseScript.Binary64.Arithmetic

/-!
# What rounding keeps

A finite number of the format stands for a rational number, and the rational numbers that it can
stand for are integers of at most 53 bits times powers of two. Rounding takes the nearest of them,
so no such number lies between a result and what it was rounded from. That is all that is needed
of rounding: arithmetic is exact where the exact result is such a number, and keeps every bound by
such numbers.
-/
namespace PulseScript

section RoundHalfEven

variable {num den k : Nat}

theorem le_roundHalfEven (hden : 0 < den) (h : k * den ≤ num) : k ≤ roundHalfEven num den := by
  have hk : k ≤ num / den := (Nat.le_div_iff_mul_le hden).mpr h
  unfold roundHalfEven
  dsimp only
  split_ifs <;> omega

theorem roundHalfEven_le (hden : 0 < den) (h : num ≤ k * den) : roundHalfEven num den ≤ k := by
  have hsplit := Nat.div_add_mod num den
  unfold roundHalfEven
  dsimp only
  rcases Nat.eq_zero_or_pos (num % den) with hrest | hrest
  · rw [if_pos (by omega)]
    exact Nat.div_le_of_le_mul (by rwa [Nat.mul_comm])
  · -- the quotient is not whole, so it is below the bound by less than one
    have hlt : num / den < k := by
      by_contra hle
      have hmul := Nat.mul_le_mul_left den (Nat.not_lt.mp hle)
      rw [Nat.mul_comm den k] at hmul
      omega
    split_ifs <;> omega

end RoundHalfEven

namespace Binary64

def rational (negative : Bool) (significand : Nat) (exponent : Int) : ℚ :=
  (if negative then -1 else 1) * (significand * 2 ^ exponent)

def value? : Binary64 → Option ℚ
  | .finite s m e _ => some (rational s m e)
  | _ => none

/-- No finite number of the format is as large. -/
def limit : ℚ := 2 ^ (1024 : Int)

/-- An integer of at most 53 bits times a power of two that the format has, but for its size. -/
def OnGrid (v : ℚ) : Prop := ∃ m e : Int, |m| ≤ 2 ^ 53 ∧ -1074 ≤ e ∧ v = m * 2 ^ e

/-- The number is not below, where positive infinity is above everything. -/
def AtLeast (v : ℚ) : Binary64 → Prop
  | .nan => False
  | .infinite s => s = false
  | .finite s m e _ => v ≤ rational s m e

/-- The number is not above, where negative infinity is below everything. -/
def AtMost (v : ℚ) : Binary64 → Prop
  | .nan => False
  | .infinite s => s = true
  | .finite s m e _ => rational s m e ≤ v

/-- A rational number was rounded to this number: nothing on the grid lies strictly between the
two, or between the rational number and an infinity that it overflows to. -/
structure Rounds (r : ℚ) (x : Binary64) : Prop where
  atLeast : ∀ v, OnGrid v → -limit < v → v ≤ r → AtLeast v x
  atMost : ∀ v, OnGrid v → v < limit → r ≤ v → AtMost v x

theorem two_zpow_pos (e : Int) : (0 : ℚ) < 2 ^ e := zpow_pos (by norm_num) e

theorem two_zpow_toNat {e : Int} (h : 0 ≤ e) : (2 : ℚ) ^ e = (2 ^ e.toNat : Nat) := by
  conv_lhs => rw [← Int.toNat_of_nonneg h]
  push_cast
  exact zpow_natCast 2 e.toNat

theorem two_zpow_split {d e : Int} (h : d ≤ e) : (2 : ℚ) ^ e = (2 ^ (e - d).toNat : Nat) * 2 ^ d := by
  rw [← two_zpow_toNat (Int.sub_nonneg.mpr h), ← zpow_add₀ two_ne_zero, Int.sub_add_cancel]

theorem limit_eq_mul : limit = 2 ^ 53 * 2 ^ (971 : Int) := by
  rw [limit, show (1024 : Int) = 53 + 971 by norm_num, zpow_add₀ two_ne_zero]
  rfl

theorem rational_not (s : Bool) (m : Nat) (e : Int) : rational (!s) m e = -rational s m e := by
  cases s <;> simp [rational]

theorem abs_rational (s : Bool) (m : Nat) (e : Int) : |rational s m e| = m * 2 ^ e := by
  cases s <;> simp [rational, abs_mul, abs_of_pos (two_zpow_pos e)]

namespace OnGrid

variable {v : ℚ}

theorem intCast {k : Int} (h : |k| ≤ 2 ^ 53) : OnGrid k := ⟨k, 0, h, by norm_num, by simp⟩

theorem zero : OnGrid 0 := ⟨0, 0, by norm_num, by norm_num, by simp⟩

theorem neg (h : OnGrid v) : OnGrid (-v) := by
  obtain ⟨m, e, hm, he, rfl⟩ := h
  exact ⟨-m, e, by rwa [abs_neg], he, by push_cast; ring⟩

theorem rational {s : Bool} {m : Nat} {e : Int} (h : CanonicalPair m e) :
    OnGrid (rational s m e) := by
  have hm : (m : Int) < 2 ^ 53 := by exact_mod_cast h.1
  refine ⟨if s then -m else m, e, ?_, h.2.1, ?_⟩
  · cases s <;> simp <;> omega
  · cases s <;> simp [Binary64.rational]

/-- Everything on the grid is a multiple of its least step. -/
theorem exists_mul (h : OnGrid v) : ∃ k : Int, v = k * 2 ^ (-1074 : Int) := by
  obtain ⟨m, e, -, he, rfl⟩ := h
  refine ⟨m * 2 ^ (e - -1074).toNat, ?_⟩
  rw [two_zpow_split he, Int.cast_mul, mul_assoc]
  norm_cast

end OnGrid

theorem value?_eq_some_iff {x : Binary64} {v : ℚ} :
    x.value? = some v ↔ ∃ s m e, ∃ h : CanonicalPair m e, x = .finite s m e h ∧ v = rational s m e := by
  cases x with
  | finite s m e h =>
    simp only [value?, Option.some.injEq]
    constructor
    · rintro rfl
      exact ⟨s, m, e, h, rfl, rfl⟩
    · rintro ⟨s', m', e', h', heq, rfl⟩
      cases heq
      rfl
  | _ => simp [value?]

section Value

variable {x : Binary64} {v w : ℚ}

theorem onGrid_of_value (h : x.value? = some v) : OnGrid v := by
  obtain ⟨s, m, e, hc, rfl, rfl⟩ := value?_eq_some_iff.mp h
  exact .rational hc

theorem abs_lt_limit_of_value (h : x.value? = some v) : |v| < limit := by
  obtain ⟨s, m, e, hc, rfl, rfl⟩ := value?_eq_some_iff.mp h
  have hm : (m : ℚ) < 2 ^ 53 := by exact_mod_cast hc.1
  have he : (2 : ℚ) ^ e ≤ 2 ^ (971 : Int) := zpow_le_zpow_right₀ (by norm_num) hc.2.2.1
  calc |rational s m e| = m * 2 ^ e := abs_rational s m e
    _ ≤ m * 2 ^ (971 : Int) := mul_le_mul_of_nonneg_left he (Nat.cast_nonneg m)
    _ < 2 ^ 53 * 2 ^ (971 : Int) := mul_lt_mul_of_pos_right hm (two_zpow_pos _)
    _ = limit := limit_eq_mul.symm

theorem value?_neg (h : x.value? = some v) : (-x).value? = some (-v) := by
  obtain ⟨s, m, e, hc, rfl, rfl⟩ := value?_eq_some_iff.mp h
  exact congrArg some (rational_not s m e)

theorem atLeast_iff_of_value (h : x.value? = some v) : AtLeast w x ↔ w ≤ v := by
  obtain ⟨s, m, e, hc, rfl, rfl⟩ := value?_eq_some_iff.mp h
  rfl

theorem atMost_iff_of_value (h : x.value? = some v) : AtMost w x ↔ v ≤ w := by
  obtain ⟨s, m, e, hc, rfl, rfl⟩ := value?_eq_some_iff.mp h
  rfl

theorem atLeast_neg_iff : AtLeast v (-x) ↔ AtMost (-v) x := by
  cases x with
  | nan => rfl
  | infinite s => cases s <;> simp [Neg.neg, Binary64.neg, AtLeast, AtMost]
  | finite s m e h =>
    show v ≤ rational (!s) m e ↔ rational s m e ≤ -v
    rw [rational_not, le_neg]

theorem atMost_neg_iff : AtMost v (-x) ↔ AtLeast (-v) x := by
  have h := atLeast_neg_iff (v := -v) (x := -x)
  rw [neg_neg x] at h
  simpa using h.symm

theorem value_zero (s : Bool) : (zero s).value? = some 0 := by
  simp [zero, value?, rational]

end Value

theorem rounds_zero (s : Bool) : Rounds 0 (zero s) where
  atLeast _ _ _ hv := (atLeast_iff_of_value (value_zero s)).mpr hv
  atMost _ _ _ hv := (atMost_iff_of_value (value_zero s)).mpr hv

namespace Rounds

variable {r v w : ℚ} {x : Binary64}

theorem neg (h : Rounds r x) : Rounds (-r) (-x) where
  atLeast v hv hlim hvr := atLeast_neg_iff.mpr (h.atMost (-v) hv.neg (by linarith) (by linarith))
  atMost v hv hlim hrv := atMost_neg_iff.mpr (h.atLeast (-v) hv.neg (by linarith) (by linarith))

/-- Bounds on the grid are kept. -/
theorem exists_value (h : Rounds r x) (hv : OnGrid v) (hw : OnGrid w) (hlow : -limit < v)
    (hhigh : w < limit) (hvr : v ≤ r) (hrw : r ≤ w) : ∃ q, x.value? = some q ∧ v ≤ q ∧ q ≤ w := by
  have hleast := h.atLeast v hv hlow hvr
  have hmost := h.atMost w hw hhigh hrw
  cases x with
  | nan => exact hleast.elim
  | infinite s => exact absurd (Eq.trans (Eq.symm hleast) hmost) (by simp)
  | finite s m e hc => exact ⟨_, rfl, hleast, hmost⟩

/-- Nothing is rounded that is on the grid. -/
theorem value_eq (h : Rounds r x) (hr : OnGrid r) (hlim : |r| < limit) : x.value? = some r := by
  obtain ⟨hlow, hhigh⟩ := abs_lt.mp hlim
  obtain ⟨q, hq, hrq, hqr⟩ := h.exists_value hr hr hlow hhigh le_rfl le_rfl
  rw [hq, le_antisymm hqr hrq]

end Rounds

section Nearest

variable {num den : Nat}

theorem inUnits_pos (hden : 0 < den) (e : Int) : 0 < (inUnits num den e).2 := by
  unfold inUnits
  split
  · exact Nat.mul_pos hden (Nat.pow_pos (by norm_num))
  · exact hden

/-- Counting in units of a power of two does not change the quotient. -/
theorem inUnits_div_mul (num den : Nat) (e : Int) :
    ((inUnits num den e).1 : ℚ) / (inUnits num den e).2 * 2 ^ e = num / den := by
  have hpow := (two_zpow_pos e).ne'
  unfold inUnits
  split
  · rename_i he
    rw [Nat.cast_mul, Nat.pow_eq, ← two_zpow_toNat he]
    field_simp
  · rename_i he
    rw [Nat.cast_mul, Nat.pow_eq, ← two_zpow_toNat (by omega), zpow_neg]
    field_simp

/-- A multiple of the unit is compared with the quotient by comparing integers. -/
theorem mul_le_div_iff (hden : 0 < den) (e : Int) (k : Nat) :
    (k : ℚ) * 2 ^ e ≤ num / den ↔ k * (inUnits num den e).2 ≤ (inUnits num den e).1 := by
  have hunit : (0 : ℚ) < (inUnits num den e).2 := by exact_mod_cast inUnits_pos hden e
  rw [← inUnits_div_mul num den e, mul_le_mul_iff_left₀ (two_zpow_pos e), le_div_iff₀ hunit]
  norm_cast

theorem div_le_mul_iff (hden : 0 < den) (e : Int) (k : Nat) :
    (num : ℚ) / den ≤ k * 2 ^ e ↔ (inUnits num den e).1 ≤ k * (inUnits num den e).2 := by
  have hunit : (0 : ℚ) < (inUnits num den e).2 := by exact_mod_cast inUnits_pos hden e
  rw [← inUnits_div_mul num den e, mul_le_mul_iff_left₀ (two_zpow_pos e), div_le_iff₀ hunit]
  norm_cast

structure IsLastPlace (num den : Nat) (e : Int) : Prop where
  least : -1074 ≤ e
  lt : (num : ℚ) / den < 2 ^ 53 * 2 ^ e
  full : e = -1074 ∨ 2 ^ 52 * 2 ^ e ≤ (num : ℚ) / den

/-- The lengths of two numbers bound their quotient on both sides. -/
theorem div_bounds_of_log2 (hnum : 0 < num) (hden : 0 < den) :
    2 ^ ((num.log2 : Int) - den.log2 - 1) < (num : ℚ) / den ∧
      (num : ℚ) / den < 2 ^ ((num.log2 : Int) - den.log2 + 1) := by
  have hbound : ∀ n : Nat, 0 < n → (2 : ℚ) ^ (n.log2 : Int) ≤ n ∧ (n : ℚ) < 2 ^ ((n.log2 : Int) + 1) := by
    intro n hn
    constructor
    · exact_mod_cast Nat.log2_self_le hn.ne'
    · exact_mod_cast Nat.lt_log2_self
  obtain ⟨hnum₁, hnum₂⟩ := hbound num hnum
  obtain ⟨hden₁, hden₂⟩ := hbound den hden
  have hpos : (0 : ℚ) < den := by exact_mod_cast hden
  rw [lt_div_iff₀ hpos, div_lt_iff₀ hpos]
  constructor
  · calc (2 : ℚ) ^ ((num.log2 : Int) - den.log2 - 1) * den
        < 2 ^ ((num.log2 : Int) - den.log2 - 1) * 2 ^ ((den.log2 : Int) + 1) :=
          mul_lt_mul_of_pos_left hden₂ (two_zpow_pos _)
      _ = 2 ^ (num.log2 : Int) := by rw [← zpow_add₀ two_ne_zero]; ring_nf
      _ ≤ num := hnum₁
  · calc (num : ℚ) < 2 ^ ((num.log2 : Int) + 1) := hnum₂
      _ = 2 ^ ((num.log2 : Int) - den.log2 + 1) * 2 ^ (den.log2 : Int) := by
          rw [← zpow_add₀ two_ne_zero]; ring_nf
      _ ≤ 2 ^ ((num.log2 : Int) - den.log2 + 1) * den :=
          mul_le_mul_of_nonneg_left hden₁ (two_zpow_pos _).le

/-- The exponent at which the quotient has a significand of 53 bits. -/
def fullPlace (num den : Nat) : Int :=
  let guess : Int := (num.log2 : Int) - (den.log2 : Int) - 52
  let units := inUnits num den guess
  if Nat.pow 2 52 ≤ units.1 / units.2 then guess else guess - 1

theorem two_pow_mul_zpow (k : Nat) (e : Int) : (2 : ℚ) ^ k * 2 ^ e = 2 ^ (k + e) := by
  rw [zpow_add₀ two_ne_zero, zpow_natCast]

theorem fullPlace_bounds (hnum : 0 < num) (hden : 0 < den) :
    2 ^ 52 * 2 ^ fullPlace num den ≤ (num : ℚ) / den ∧
      (num : ℚ) / den < 2 ^ 53 * 2 ^ fullPlace num den := by
  obtain ⟨hlow, hhigh⟩ := div_bounds_of_log2 hnum hden
  have hle : ∀ e : Int, (2 : ℚ) ^ 52 * 2 ^ e ≤ num / den ↔
      Nat.pow 2 52 ≤ (inUnits num den e).1 / (inUnits num den e).2 := by
    intro e
    rw [Nat.le_div_iff_mul_le (inUnits_pos hden e), ← mul_le_div_iff hden e (Nat.pow 2 52),
      Nat.pow_eq, Nat.cast_pow, Nat.cast_ofNat]
  have hmono : ∀ {d e : Int}, d ≤ e → (2 : ℚ) ^ d ≤ 2 ^ e := zpow_le_zpow_right₀ (by norm_num)
  rw [fullPlace]
  split_ifs with h
  · refine ⟨(hle _).mpr h, hhigh.trans_le ?_⟩
    rw [two_pow_mul_zpow]
    exact hmono (by omega)
  · have hlt := not_le.mp (mt (hle _).mp h)
    rw [two_pow_mul_zpow] at hlt ⊢
    rw [two_pow_mul_zpow]
    exact ⟨(hmono (by omega)).trans hlow.le, hlt.trans_le (hmono (by omega))⟩

theorem isLastPlace_lastPlace (hnum : 0 < num) (hden : 0 < den) :
    IsLastPlace num den (lastPlace num den) := by
  obtain ⟨hle, hlt⟩ := fullPlace_bounds hnum hden
  have hmax : lastPlace num den = max (fullPlace num den) (-1074) := rfl
  rw [hmax]
  refine ⟨le_max_right _ _, hlt.trans_le ?_, ?_⟩
  · have hpow : (2 : ℚ) ^ fullPlace num den ≤ 2 ^ max (fullPlace num den) (-1074) :=
      zpow_le_zpow_right₀ (by norm_num) (le_max_left _ _)
    exact mul_le_mul_of_nonneg_left hpow (by positivity)
  · rcases le_total (fullPlace num den) (-1074) with h | h
    · exact .inl (max_eq_right h)
    · rw [max_eq_left h]
      exact .inr hle

/-- The significand that a quotient is rounded to at an exponent. -/
def significandAt (num den : Nat) (e : Int) : Nat :=
  roundHalfEven (inUnits num den e).1 (inUnits num den e).2

theorem le_significandAt {k : Nat} {e : Int} (hden : 0 < den) (h : (k : ℚ) * 2 ^ e ≤ num / den) :
    k ≤ significandAt num den e :=
  le_roundHalfEven (inUnits_pos hden e) ((mul_le_div_iff hden e k).mp h)

theorem significandAt_le {k : Nat} {e : Int} (hden : 0 < den) (h : (num : ℚ) / den ≤ k * 2 ^ e) :
    significandAt num den e ≤ k :=
  roundHalfEven_le (inUnits_pos hden e) ((div_le_mul_iff hden e k).mp h)

/-- The rounded quotient, whether or not the format has it. -/
def roundedAt (num den : Nat) (e : Int) : ℚ := significandAt num den e * 2 ^ e

section LastPlace

variable {e : Int} {v : ℚ}

theorem mul_le_roundedAt {k : Nat} (hden : 0 < den) (h : (k : ℚ) * 2 ^ e ≤ num / den) :
    (k : ℚ) * 2 ^ e ≤ roundedAt num den e :=
  mul_le_mul_of_nonneg_right (Nat.cast_le.mpr (le_significandAt hden h)) (two_zpow_pos e).le

theorem roundedAt_le_mul {k : Nat} (hden : 0 < den) (h : (num : ℚ) / den ≤ k * 2 ^ e) :
    roundedAt num den e ≤ k * 2 ^ e :=
  mul_le_mul_of_nonneg_right (Nat.cast_le.mpr (significandAt_le hden h)) (two_zpow_pos e).le

/-- What is on the grid is a multiple of the last place, or below the least significand that has
all of its bits, which the quotient is not. -/
theorem IsLastPlace.exists_mul_or (h : IsLastPlace num den e) (hv : OnGrid v) (hpos : 0 ≤ v) :
    (∃ k : Nat, v = k * 2 ^ e) ∨
      v ≤ (2 ^ 52 : Nat) * 2 ^ e ∧ ((2 ^ 52 : Nat) : ℚ) * 2 ^ e ≤ num / den := by
  obtain ⟨m, d, hm, hd, rfl⟩ := hv
  rcases le_or_gt e d with hed | hde
  · have hm₀ : 0 ≤ m := by exact_mod_cast nonneg_of_mul_nonneg_left hpos (two_zpow_pos d)
    have hcast : (m : ℚ) = m.toNat := by exact_mod_cast (Int.toNat_of_nonneg hm₀).symm
    exact .inl ⟨m.toNat * 2 ^ (d - e).toNat, by
      rw [two_zpow_split hed, hcast, Nat.cast_mul, mul_assoc]⟩
  · rw [Nat.cast_pow, Nat.cast_ofNat]
    refine .inr ⟨?_, h.full.resolve_left (by have := h.least; omega)⟩
    have hm' : (m : ℚ) ≤ 2 ^ 53 := by exact_mod_cast (abs_le.mp hm).2
    calc (m : ℚ) * 2 ^ d ≤ 2 ^ 53 * 2 ^ d := mul_le_mul_of_nonneg_right hm' (two_zpow_pos d).le
      _ = 2 ^ ((53 : Nat) + d) := two_pow_mul_zpow 53 d
      _ ≤ 2 ^ ((52 : Nat) + e) := zpow_le_zpow_right₀ (by norm_num) (by push_cast; omega)
      _ = 2 ^ 52 * 2 ^ e := (two_pow_mul_zpow 52 e).symm

/-- What is on the grid below a quotient is below the rounded one. -/
theorem IsLastPlace.le_roundedAt (h : IsLastPlace num den e) (hden : 0 < den) (hv : OnGrid v)
    (hpos : 0 ≤ v) (hle : v ≤ num / den) : v ≤ roundedAt num den e := by
  rcases h.exists_mul_or hv hpos with ⟨k, rfl⟩ | ⟨hsmall, hfull⟩
  · exact mul_le_roundedAt hden hle
  · exact hsmall.trans (mul_le_roundedAt hden hfull)

/-- What is on the grid above a quotient is above the rounded one. -/
theorem IsLastPlace.roundedAt_le (h : IsLastPlace num den e) (hden : 0 < den) (hv : OnGrid v)
    (hpos : 0 ≤ v) (hle : (num : ℚ) / den ≤ v) : roundedAt num den e ≤ v := by
  rcases h.exists_mul_or hv hpos with ⟨k, rfl⟩ | ⟨hsmall, hfull⟩
  · exact roundedAt_le_mul hden hle
  · exact (roundedAt_le_mul hden (hle.trans hsmall)).trans (hfull.trans hle)

end LastPlace

/-- The significand fits into 53 bits, or is the next power of two. -/
theorem IsLastPlace.significandAt_bounds {e : Int} (h : IsLastPlace num den e) (hden : 0 < den) :
    significandAt num den e ≤ 2 ^ 53 ∧ (2 ^ 52 ≤ significandAt num den e ∨ e = -1074) := by
  constructor
  · refine significandAt_le hden ?_
    rw [Nat.cast_pow, Nat.cast_ofNat]
    exact h.lt.le
  · refine h.full.symm.imp_left fun hfull => le_significandAt hden ?_
    rwa [Nat.cast_pow, Nat.cast_ofNat]

/-- A significand and an exponent make a number, unless its magnitude is too large. -/
theorem value_pack {m : Nat} {e : Int} (hm : m < 2 ^ 53) (he : -1074 ≤ e)
    (hfull : 2 ^ 52 ≤ m ∨ e = -1074) :
    (pack false m e).value? = some ((m : ℚ) * 2 ^ e) ∨
      pack false m e = .infinite false ∧ limit ≤ (m : ℚ) * 2 ^ e := by
  rcases le_or_gt e 971 with hmax | hmax
  · left
    rw [pack_of_canonical false ⟨hm, he, hmax, hfull⟩]
    simp [value?, rational]
  · right
    have hbits : 2 ^ 52 ≤ m := hfull.resolve_right (by omega)
    refine ⟨dif_neg fun h => absurd h.2.2.1 (not_le.mpr hmax), ?_⟩
    calc limit = 2 ^ ((52 : Nat) + (972 : Int)) := by rw [limit]; norm_num
      _ ≤ 2 ^ ((52 : Nat) + e) := zpow_le_zpow_right₀ (by norm_num) (by omega)
      _ = 2 ^ 52 * 2 ^ e := (two_pow_mul_zpow 52 e).symm
      _ ≤ m * 2 ^ e := mul_le_mul_of_nonneg_right (by exact_mod_cast hbits) (two_zpow_pos e).le

/-- The nearest number is the rounded quotient, unless that is too large. -/
theorem value_nearest (hnum : 0 < num) (hden : 0 < den) :
    (nearest false num den).value? = some (roundedAt num den (lastPlace num den)) ∨
      nearest false num den = .infinite false ∧ limit ≤ roundedAt num den (lastPlace num den) := by
  have hplace := isLastPlace_lastPlace hnum hden
  obtain ⟨hbits, hfull⟩ := hplace.significandAt_bounds hden
  have hnearest : nearest false num den =
      if significandAt num den (lastPlace num den) < 2 ^ 53 then
        pack false (significandAt num den (lastPlace num den)) (lastPlace num den)
      else pack false (2 ^ 52) (lastPlace num den + 1) := by
    rw [nearest, if_neg hnum.ne']
    rfl
  rw [hnearest, roundedAt]
  split_ifs with h
  · exact value_pack h hplace.least hfull
  · -- all ones are rounded up to the next power of two, which has the next exponent
    have hnext : ((2 ^ 52 : Nat) : ℚ) * 2 ^ (lastPlace num den + 1) =
        significandAt num den (lastPlace num den) * 2 ^ lastPlace num den := by
      rw [show significandAt num den (lastPlace num den) = 2 ^ 53 by omega,
        zpow_add₀ two_ne_zero]
      push_cast
      ring
    rw [← hnext]
    exact value_pack (by norm_num) (by have := hplace.least; omega) (.inl le_rfl)

/-- The nearest number is what a quotient is rounded to. -/
theorem rounds_nearest (num : Nat) (hden : 0 < den) :
    Rounds ((num : ℚ) / den) (nearest false num den) := by
  rcases Nat.eq_zero_or_pos num with rfl | hnum
  · rw [Nat.cast_zero, zero_div]
    exact rounds_zero false
  have hplace := isLastPlace_lastPlace hnum hden
  have hquotient : (0 : ℚ) ≤ num / den := by positivity
  have hpos : 0 ≤ roundedAt num den (lastPlace num den) :=
    mul_nonneg (Nat.cast_nonneg _) (two_zpow_pos _).le
  constructor
  · intro v hv _ hle
    rcases value_nearest hnum hden with hvalue | ⟨hinf, -⟩
    · rw [atLeast_iff_of_value hvalue]
      rcases le_total 0 v with h | h
      · exact hplace.le_roundedAt hden hv h hle
      · exact h.trans hpos
    · rw [hinf]
      rfl
  · intro v hv hlim hle
    have hround := hplace.roundedAt_le hden hv (hquotient.trans hle) hle
    rcases value_nearest hnum hden with hvalue | ⟨-, hlarge⟩
    · exact (atMost_iff_of_value hvalue).mpr hround
    · exact absurd (hlarge.trans hround) (not_le.mpr hlim)

theorem nearest_true (num den : Nat) : nearest true num den = -nearest false num den := by
  have hpack : ∀ m e, pack true m e = -pack false m e := by
    intro m e
    unfold pack
    split <;> rfl
  unfold nearest
  dsimp only
  split_ifs
  · rfl
  · exact hpack _ _
  · exact hpack _ _

end Nearest

theorem rounds_nearest_signed (s : Bool) (num : Nat) {den : Nat} (hden : 0 < den) :
    Rounds ((if s then -1 else 1) * ((num : ℚ) / den)) (nearest s num den) := by
  cases s with
  | false => simpa using rounds_nearest num hden
  | true => simpa [nearest_true] using (rounds_nearest num hden).neg

/-- An integer times a power of two is rounded once. -/
theorem rounds_ofDyadic (s : Bool) (k e : Int) : Rounds (k * 2 ^ e) (ofDyadic s k e) := by
  unfold ofDyadic
  by_cases hk : k = 0
  · rw [if_pos hk, hk, Int.cast_zero, zero_mul]
    exact rounds_zero s
  rw [if_neg hk]
  have hsign : (k : ℚ) = (if decide (k < 0) then -1 else 1) * k.natAbs := by
    rcases lt_or_gt_of_ne hk with h | h
    · rw [decide_eq_true h, Nat.cast_natAbs, abs_of_neg h]
      simp
    · rw [decide_eq_false h.not_gt, Nat.cast_natAbs, abs_of_pos h]
      simp
  by_cases he : 0 ≤ e
  · have hround := rounds_nearest_signed (decide (k < 0)) (k.natAbs * Nat.pow 2 e.toNat) one_pos
    rw [if_pos he, hsign, two_zpow_toNat he, mul_assoc]
    simpa using hround
  · have hpow : 0 < Nat.pow 2 (-e).toNat := Nat.pow_pos (by norm_num)
    have hround := rounds_nearest_signed (decide (k < 0)) k.natAbs hpow
    have hinv : (2 : ℚ) ^ e = ((Nat.pow 2 (-e).toNat : Nat) : ℚ)⁻¹ := by
      rw [Nat.pow_eq, ← two_zpow_toNat (by omega), zpow_neg, inv_inv]
    rw [if_neg he, hsign, hinv, mul_assoc, ← div_eq_mul_inv]
    exact hround

end Binary64
end PulseScript
