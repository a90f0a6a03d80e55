import Mathlib
import PulseScript.Proofs.Rounding

/-!
# Arithmetic on values

Every operation on finite numbers rounds the exact result once, so it is exact where that is on the
grid. Comparisons are those of the values, because each value has one form only. Integers of at most
53 bits are on the grid, and with them the whole parts of all numbers.
-/
namespace PulseScript
namespace Binary64

variable {x y : Binary64} {v w : ℚ}

theorem count_mul (s : Bool) (m : Nat) {unit e : Int} (h : unit ≤ e) :
    (count s m e unit : ℚ) * 2 ^ unit = rational s m e := by
  rw [rational, two_zpow_split h]
  cases s <;> simp [count] <;> ring

/-- A sum is rounded once. -/
theorem rounds_add (hx : x.value? = some v) (hy : y.value? = some w) : Rounds (v + w) (x + y) := by
  obtain ⟨s, m, e, hm, rfl, rfl⟩ := value?_eq_some_iff.mp hx
  obtain ⟨t, n, f, hn, rfl, rfl⟩ := value?_eq_some_iff.mp hy
  have hround := rounds_ofDyadic (s && t)
    (count s m e (min e f) + count t n f (min e f)) (min e f)
  rw [Int.cast_add, add_mul, count_mul s m (min_le_left e f), count_mul t n (min_le_right e f)]
    at hround
  exact hround

theorem rounds_sub (hx : x.value? = some v) (hy : y.value? = some w) : Rounds (v - w) (x - y) := by
  rw [sub_eq_add_neg]
  exact rounds_add hx (value?_neg hy)

theorem rounds_mul (hx : x.value? = some v) (hy : y.value? = some w) : Rounds (v * w) (x * y) := by
  obtain ⟨s, m, e, hm, rfl, rfl⟩ := value?_eq_some_iff.mp hx
  obtain ⟨t, n, f, hn, rfl, rfl⟩ := value?_eq_some_iff.mp hy
  have hround := rounds_ofDyadic (s ^^ t) (count s m e e * count t n f f) (e + f)
  have hsplit : ((count s m e e * count t n f f : Int) : ℚ) * 2 ^ (e + f) =
      rational s m e * rational t n f := by
    rw [zpow_add₀ two_ne_zero, Int.cast_mul, mul_mul_mul_comm, count_mul s m le_rfl,
      count_mul t n le_rfl]
  rw [hsplit] at hround
  exact hround

theorem rounds_div (hx : x.value? = some v) (hy : y.value? = some w) (hw : w ≠ 0) :
    Rounds (v / w) (x / y) := by
  obtain ⟨s, m, e, hm, rfl, rfl⟩ := value?_eq_some_iff.mp hx
  obtain ⟨t, n, f, hn, rfl, rfl⟩ := value?_eq_some_iff.mp hy
  have hn₀ : n ≠ 0 := by
    rintro rfl
    exact hw (by simp [rational])
  have hsigns : rational s m e / rational t n f =
      (if s ^^ t then -1 else 1) * ((m : ℚ) * 2 ^ e / (n * 2 ^ f)) := by
    cases s <;> cases t <;> simp [rational, neg_div, div_neg]
  rw [hsigns]
  show Rounds _ (div _ _)
  rw [div, if_neg hn₀]
  by_cases hfe : f ≤ e
  · have hround := rounds_nearest_signed (s ^^ t) (m * Nat.pow 2 (e - f).toNat)
      (Nat.pos_of_ne_zero hn₀)
    have hcancel : (m : ℚ) * 2 ^ e / (n * 2 ^ f) = (m * Nat.pow 2 (e - f).toNat : Nat) / n := by
      rw [two_zpow_split hfe, ← mul_assoc, mul_div_mul_right _ _ (two_zpow_pos f).ne']
      norm_cast
    rw [if_pos hfe, hcancel]
    exact hround
  · have hpow : 0 < n * Nat.pow 2 (f - e).toNat :=
      Nat.mul_pos (Nat.pos_of_ne_zero hn₀) (Nat.pow_pos (by norm_num))
    have hround := rounds_nearest_signed (s ^^ t) m hpow
    have hcancel : (m : ℚ) * 2 ^ e / (n * 2 ^ f) = m / (n * Nat.pow 2 (f - e).toNat : Nat) := by
      rw [two_zpow_split (by omega : e ≤ f), ← mul_assoc, mul_div_mul_right _ _ (two_zpow_pos e).ne']
      norm_cast
    rw [if_neg hfe, hcancel]
    exact hround

theorem abs_intCast_lt_limit {k : Int} (h : |k| ≤ 2 ^ 53) : |(k : ℚ)| < limit := by
  rw [limit]
  calc |(k : ℚ)| ≤ 2 ^ (53 : Int) := by exact_mod_cast h
    _ < 2 ^ (1024 : Int) := zpow_lt_zpow_right₀ (by norm_num) (by norm_num)

/-- Integers of at most 53 bits are numbers of the format. -/
theorem value_ofDyadic (s : Bool) {k : Int} (h : |k| ≤ 2 ^ 53) :
    (ofDyadic s k 0).value? = some (k : ℚ) := by
  have hround : Rounds k (ofDyadic s k 0) := by simpa using rounds_ofDyadic s k 0
  exact hround.value_eq (.intCast h) (abs_intCast_lt_limit h)

theorem value_ofNat {n : Nat} (h : n ≤ 2 ^ 53) : (ofNat n).value? = some (n : ℚ) :=
  value_ofDyadic false (by rw [Nat.abs_cast]; exact_mod_cast h)

theorem abs_count_le {s : Bool} {m : Nat} {e : Int} (h : CanonicalPair m e) :
    |count s m e e| ≤ 2 ^ 53 := by
  have hm : (m : Int) < 2 ^ 53 := by exact_mod_cast h.1
  cases s <;> simp [count] <;> omega

/-- A number that is not whole counts its own place by a power of two in the denominator. -/
theorem rational_eq_div (s : Bool) (m : Nat) {e : Int} (he : ¬ 0 ≤ e) :
    rational s m e = (count s m e e : ℚ) / (Nat.pow 2 (-e).toNat : Nat) := by
  rw [← count_mul s m le_rfl, div_eq_mul_inv, Nat.pow_eq, ← two_zpow_toNat (by omega), zpow_neg,
    inv_inv]

theorem rational_eq_count (s : Bool) (m : Nat) {e : Int} (he : 0 ≤ e) :
    rational s m e = count s m e 0 := by
  rw [← count_mul s m he, zpow_zero, mul_one]

/-- The floor is exact. -/
theorem value_floor (hx : x.value? = some v) : x.floor.value? = some (⌊v⌋ : ℚ) := by
  obtain ⟨s, m, e, hm, rfl, rfl⟩ := value?_eq_some_iff.mp hx
  rw [floor]
  split_ifs with he
  · rw [value?, rational_eq_count s m he, Int.floor_intCast]
  · rw [rational_eq_div s m he, Rat.floor_intCast_div_natCast,
      Int.fdiv_eq_ediv_of_nonneg _ (Int.natCast_nonneg _)]
    exact value_ofDyadic s ((Int.abs_ediv_le_abs _ _).trans (abs_count_le hm))

/-- The whole part of what a sign, a significand and an exponent stand for, toward zero. -/
def wholePart (s : Bool) (m : Nat) (e : Int) : Int :=
  if 0 ≤ e then count s m e 0 else (count s m e e).tdiv (Nat.pow 2 (-e).toNat)

/-- From zero on the whole part is the floor, and below zero neither is positive. -/
theorem toNat_wholePart (s : Bool) (m : Nat) (e : Int) :
    (wholePart s m e).toNat = ⌊rational s m e⌋.toNat := by
  rw [wholePart]
  split_ifs with he
  · rw [rational_eq_count s m he, Int.floor_intCast]
  · rw [rational_eq_div s m he, Rat.floor_intCast_div_natCast]
    have hpow : (0 : Int) < (Nat.pow 2 (-e).toNat : Nat) := by exact_mod_cast Nat.pow_pos (by norm_num)
    rcases le_or_gt 0 (count s m e e) with h | h
    · rw [Int.tdiv_eq_ediv_of_nonneg h]
    · have htrunc := Int.tdiv_nonneg (Int.neg_nonneg_of_nonpos h.le) hpow.le
      rw [Int.neg_tdiv, Int.neg_nonneg] at htrunc
      have hfloor := Int.ediv_neg_of_neg_of_pos h hpow
      rw [Int.toNat_of_nonpos htrunc, Int.toNat_of_nonpos hfloor.le]

theorem value_truncate (hx : x.value? = some v) :
    ∃ k : Int, x.truncate.value? = some (k : ℚ) ∧ k.toNat = ⌊v⌋.toNat := by
  obtain ⟨s, m, e, hm, rfl, rfl⟩ := value?_eq_some_iff.mp hx
  refine ⟨wholePart s m e, ?_, toNat_wholePart s m e⟩
  rw [truncate, wholePart]
  split_ifs with he
  · rw [value?, rational_eq_count s m he]
  · have hsmaller : |(count s m e e).tdiv (Nat.pow 2 (-e).toNat)| ≤ |count s m e e| := by
      rw [Int.abs_eq_natAbs, Int.abs_eq_natAbs]
      exact_mod_cast Int.natAbs_tdiv_le_natAbs _ _
    exact value_ofDyadic s (hsmaller.trans (abs_count_le hm))

/-- A machine word takes the floor, up to its own bounds. -/
theorem toNat_toWord (hx : x.value? = some v) :
    x.toWord.toNat = min ⌊v⌋.toNat (UInt64.size - 1) := by
  obtain ⟨s, m, e, hm, rfl, rfl⟩ := value?_eq_some_iff.mp hx
  rw [← toNat_wholePart]
  refine UInt64.toNat_ofNat_of_lt' ?_
  exact (min_le_right _ _).trans_lt (by norm_num [UInt64.size])

theorem toNat_toWord_truncate (hx : x.value? = some v) :
    x.truncate.toWord.toNat = min ⌊v⌋.toNat (UInt64.size - 1) := by
  obtain ⟨k, hk, hfloor⟩ := value_truncate hx
  rw [toNat_toWord hk, Int.floor_intCast, hfloor]

/-- On the grid the half of a whole number is exact too. -/
theorem OnGrid.half {k : Int} (h : OnGrid k) : OnGrid (k / 2) := by
  obtain ⟨m, e, hm, he, hk⟩ := h
  rcases eq_or_lt_of_le he with rfl | he
  · -- nothing whole but zero is as small as the least numbers
    have hzero : k = 0 := by
      have hsmall : |(k : ℚ)| < 1 := by
        rw [hk, abs_mul, abs_of_pos (two_zpow_pos _)]
        calc |(m : ℚ)| * 2 ^ (-1074 : Int) ≤ 2 ^ (53 : Int) * 2 ^ (-1074 : Int) :=
              mul_le_mul_of_nonneg_right (by exact_mod_cast hm) (two_zpow_pos _).le
          _ = 2 ^ (-1021 : Int) := by rw [← zpow_add₀ two_ne_zero]; norm_num
          _ < 2 ^ (0 : Int) := zpow_lt_zpow_right₀ (by norm_num) (by norm_num)
          _ = 1 := zpow_zero 2
      exact Int.abs_lt_one_iff.mp (by exact_mod_cast hsmall)
    rw [hzero, Int.cast_zero, zero_div]
    exact .zero
  · refine ⟨m, e - 1, hm, by omega, ?_⟩
    rw [hk, zpow_sub₀ two_ne_zero, zpow_one, mul_div_assoc]

/-- A magnitude has one canonical form. -/
theorem canonical_unique {m n : Nat} {e f : Int} (hm : CanonicalPair m e) (hn : CanonicalPair n f)
    (h : (m : ℚ) * 2 ^ e = n * 2 ^ f) : m = n ∧ e = f := by
  wlog hef : e ≤ f generalizing m n e f
  · exact (this hn hm h.symm (by omega)).imp Eq.symm Eq.symm
  have hcount : m = n * 2 ^ (f - e).toNat := by
    rw [two_zpow_split hef, ← mul_assoc] at h
    exact_mod_cast mul_right_cancel₀ (two_zpow_pos e).ne' h
  rcases eq_or_lt_of_le hef with rfl | hlt
  · simpa using hcount
  · -- the larger exponent is not the least one, so its significand has all bits
    have hfull : 2 ^ 52 ≤ n := hn.2.2.2.resolve_right (by have := hm.2.1; omega)
    have hone : 1 ≤ (f - e).toNat := by omega
    have hlarge : 2 ^ 53 ≤ m := by
      rw [hcount]
      exact Nat.mul_le_mul hfull (Nat.pow_le_pow_right two_pos hone)
    exact absurd hm.1 (not_lt.mpr hlarge)

theorem lt_iff (hx : x.value? = some v) (hy : y.value? = some w) : x.lt y = true ↔ v < w := by
  obtain ⟨s, m, e, hm, rfl, rfl⟩ := value?_eq_some_iff.mp hx
  obtain ⟨t, n, f, hn, rfl, rfl⟩ := value?_eq_some_iff.mp hy
  rw [← count_mul s m (min_le_left e f), ← count_mul t n (min_le_right e f),
    mul_lt_mul_iff_left₀ (two_zpow_pos _), Int.cast_lt]
  exact decide_eq_true_iff

theorem beq_iff (hx : x.value? = some v) (hy : y.value? = some w) : (x == y) = true ↔ v = w := by
  obtain ⟨s, m, e, hm, rfl, rfl⟩ := value?_eq_some_iff.mp hx
  obtain ⟨t, n, f, hn, rfl, rfl⟩ := value?_eq_some_iff.mp hy
  have hbeq : (finite s m e hm == finite t n f hn) = true ↔ m = n ∧ e = f ∧ (s = t ∨ m = 0) := by
    show (m == n && e == f && (s == t || m == 0)) = true ↔ _
    simp [and_assoc]
  rw [hbeq]
  constructor
  · rintro ⟨rfl, rfl, rfl | rfl⟩
    · rfl
    · simp [rational]
  · intro h
    obtain ⟨rfl, rfl⟩ := canonical_unique hm hn
      (by rw [← abs_rational s m e, h, abs_rational])
    refine ⟨rfl, rfl, or_iff_not_imp_left.mpr fun hst => ?_⟩
    -- a number that is its own opposite is zero
    obtain rfl : t = !s := by cases s <;> cases t <;> simp at hst ⊢
    rw [rational_not, self_eq_neg, ← abs_eq_zero, abs_rational] at h
    exact_mod_cast (mul_eq_zero.mp h).resolve_right (two_zpow_pos e).ne'

/-- The comparison is that of the values. -/
theorem le_iff (hx : x.value? = some v) (hy : y.value? = some w) : x.le y = true ↔ v ≤ w := by
  rw [le, Bool.or_eq_true, lt_iff hx hy, beq_iff hx hy, le_iff_lt_or_eq]

theorem le_of_atLeast (hy : y.value? = some w) (h : AtLeast w x) : y.le x = true := by
  cases x with
  | nan => exact h.elim
  | infinite s =>
    obtain ⟨t, n, f, hn, rfl, rfl⟩ := value?_eq_some_iff.mp hy
    rw [show s = false from h]
    rfl
  | finite s m e hm => exact (le_iff hy rfl).mpr h

/-- A difference has the sign of the exact one: what is not zero is not rounded to it. -/
theorem nonneg_sub_iff {z : ℚ} (hx : x.value? = some v) (hy : y.value? = some w)
    (hz : (x - y).value? = some z) : 0 ≤ z ↔ w ≤ v := by
  have hround := rounds_sub hx hy
  have hlimit : 0 < limit := two_zpow_pos 1024
  constructor
  · contrapose!
    intro hlt
    -- both are multiples of the least step, so they are that step apart at least
    obtain ⟨k, rfl⟩ := (onGrid_of_value hx).exists_mul
    obtain ⟨l, rfl⟩ := (onGrid_of_value hy).exists_mul
    have hstep := two_zpow_pos (-1074)
    have hkl : k + 1 ≤ l := by exact_mod_cast lt_of_mul_lt_mul_right hlt hstep.le
    have hapart : (k : ℚ) * 2 ^ (-1074 : Int) - l * 2 ^ (-1074 : Int) ≤ (-1 : Int) * 2 ^ (-1074 : Int) := by
      rw [← sub_mul]
      refine mul_le_mul_of_nonneg_right ?_ hstep.le
      have : (k : ℚ) + 1 ≤ l := by exact_mod_cast hkl
      push_cast
      linarith
    have hgrid : OnGrid ((-1 : Int) * 2 ^ (-1074 : Int)) := ⟨-1, -1074, by norm_num, le_rfl, rfl⟩
    have hneg : ((-1 : Int) : ℚ) * 2 ^ (-1074 : Int) < 0 := by simp
    have hmost := hround.atMost _ hgrid (hneg.trans hlimit) hapart
    exact ((atMost_iff_of_value hz).mp hmost).trans_lt hneg
  · intro hle
    have hleast := hround.atLeast 0 .zero (by linarith) (by linarith)
    exact (atLeast_iff_of_value hz).mp hleast

/-- A power of two that is not smaller than a number, and less than twice as large. -/
theorem exists_two_pow {n : Nat} (hn : 0 < n) : ∃ j, n ≤ 2 ^ j ∧ 2 ^ j ≤ 2 * n - 1 := by
  refine ⟨Nat.clog 2 n, Nat.le_pow_clog one_lt_two n, ?_⟩
  rcases Nat.eq_or_lt_of_le hn with rfl | hlt
  · simp
  · have hbelow := Nat.pow_pred_clog_lt_self one_lt_two hlt
    have hpos := Nat.clog_pos one_lt_two hlt
    have hdouble : 2 ^ Nat.clog 2 n = 2 * 2 ^ (Nat.clog 2 n).pred := by
      rw [← pow_succ', Nat.pred_eq_sub_one, Nat.sub_add_cancel hpos]
    omega

/-- The largest number with so many places behind the point that is below a whole number has at most
53 bits, if the places are those that a quotient needs to tell it from the whole number. -/
theorem places_le {T k : Int} {n P : Nat} (hn : n ≤ 2 ^ 20) (hT : T < 2 ^ 52) (hk : 0 ≤ k)
    (hle : k * n ≤ T) (hP : P ≤ 2 * n - 1) (hpos : 0 < P) : |(k + 1) * P - 1| ≤ 2 ^ 53 := by
  have hP' : (P : Int) ≤ 2 * n - 1 := by omega
  have hpos' : (1 : Int) ≤ P := by exact_mod_cast hpos
  have hn' : (n : Int) ≤ 2 ^ 20 := by exact_mod_cast hn
  have hmul : (k + 1) * P ≤ (k + 1) * (2 * n - 1) := mul_le_mul_of_nonneg_left hP' (by omega)
  rw [abs_of_nonneg (by nlinarith)]
  rcases le_or_gt (2 * (n : Int)) k with h | h
  · nlinarith
  · have hsquare : (k + 1) * (2 * n - 1) ≤ 2 ^ 21 * 2 ^ 21 :=
      mul_le_mul (by omega) (by omega) (by omega) (by norm_num)
    omega

/-- A number on the grid between a quotient of whole numbers and the next whole number. -/
theorem exists_onGrid_below {T k : Int} {n : Nat} (hn : 0 < n) (hsmall : n ≤ 2 ^ 20)
    (hT : T < 2 ^ 52) (hk : 0 ≤ k) (hle : k * n ≤ T) (hlt : T < (k + 1) * n) :
    ∃ u, OnGrid u ∧ (T : ℚ) / n ≤ u ∧ u < k + 1 := by
  obtain ⟨j, hj, hj'⟩ := exists_two_pow hn
  have hbits := places_le hsmall hT hk hle hj' (Nat.two_pow_pos j)
  have hqn : (0 : ℚ) < n := by exact_mod_cast hn
  have hvalue : (((k + 1) * (2 ^ j : Nat) - 1 : Int) : ℚ) * 2 ^ (-j : Int) = k + 1 - 1 / 2 ^ j := by
    rw [zpow_neg, zpow_natCast]
    push_cast
    field_simp
  have hgrid : OnGrid (((k + 1) * (2 ^ j : Nat) - 1 : Int) * 2 ^ (-j : Int)) := by
    have hplaces : j < 21 := (Nat.pow_lt_pow_iff_right one_lt_two).mp (by omega)
    exact ⟨_, _, hbits, by omega, rfl⟩
  refine ⟨k + 1 - 1 / 2 ^ j, hvalue ▸ hgrid, ?_, ?_⟩
  · -- the quotient is below the next whole number by one part of the divisor at least
    have hquotient : (T : ℚ) / n ≤ k + 1 - 1 / n := by
      have hint : (T : ℚ) + 1 ≤ (k + 1) * n := by exact_mod_cast hlt
      rw [div_le_iff₀ hqn, sub_mul, one_div, inv_mul_cancel₀ hqn.ne']
      linarith
    have hpart : (1 : ℚ) / 2 ^ j ≤ 1 / n :=
      one_div_le_one_div_of_le hqn (by exact_mod_cast hj)
    linarith
  · have hpart : (0 : ℚ) < 1 / 2 ^ j := by positivity
    linarith

/-- Rounding does not carry a quotient of whole numbers to the next whole number. -/
theorem floor_of_rounds_div {T : Int} {n : Nat} {x : Binary64} {q : ℚ} (hn : 0 < n)
    (hsmall : n ≤ 2 ^ 20) (hpos : 0 ≤ T) (hT : T < 2 ^ 52) (hx : Rounds ((T : ℚ) / n) x)
    (hq : x.value? = some q) : ⌊q⌋ = T / n := by
  have hn' : (0 : Int) < n := by exact_mod_cast hn
  have hk : 0 ≤ T / n := Int.ediv_nonneg hpos hn'.le
  have hkT : T / n ≤ T := Int.ediv_le_self _ hpos
  have hle : T / n * n ≤ T := Int.ediv_mul_le T hn'.ne'
  have hlt : T < (T / n + 1) * n := Int.lt_ediv_add_one_mul_self T hn'
  generalize T / (n : Int) = k at hk hkT hle hlt ⊢
  obtain ⟨u, hu, hbelow, huk⟩ := exists_onGrid_below hn hsmall hT hk hle hlt
  have hlimit : ∀ l : Int, 0 ≤ l → l ≤ 2 ^ 53 → |(l : ℚ)| < limit := fun l hl hl' =>
    abs_intCast_lt_limit (by rwa [abs_of_nonneg hl])
  have habove : (k : ℚ) ≤ T / n := by
    rw [le_div_iff₀ (by exact_mod_cast hn)]
    exact_mod_cast hle
  have hhigh : (k : ℚ) + 1 < limit := by
    exact_mod_cast (abs_lt.mp (hlimit (k + 1) (by omega) (by omega))).2
  obtain ⟨q', hq', hkq, hqu⟩ := hx.exists_value (.intCast (by rw [abs_of_nonneg hk]; omega)) hu
    (abs_lt.mp (hlimit k hk (by omega))).1 (huk.trans hhigh) habove hbelow
  obtain rfl := Option.some.inj (hq.symm.trans hq')
  exact Int.floor_eq_iff.mpr ⟨hkq, hqu.trans_lt huk⟩

end Binary64
end PulseScript
