import Mathlib
import PulseScript.Proofs.JsonText
import PulseScript.Proofs.Layout

/-!
# Layouts by number

The first qubits of a device can be labelled by their numbers in decimal, with a zero before a
single digit. A run of digits is always the number that it denotes behind some zeros, so with
the zeros fixed a label denotes one number and is the only label that does. No entry then takes
the place of another one, and a label with a zero too few or too many stands for no qubit.
-/
namespace PulseScript

theorem exists_digitChar_of_isDigit {c : Char} (h : c.isDigit = true) :
    ∃ d < 10, c = Nat.digitChar d := by
  obtain ⟨hlow, hhigh⟩ := Char.isDigit_iff_toNat.mp h
  have hzero : '0'.toNat = 48 := rfl
  have hnine : '9'.toNat = 57 := rfl
  have hd : c.toNat - 48 < 10 := by omega
  refine ⟨c.toNat - 48, hd, Char.toNat_inj.mp ?_⟩
  rw [Nat.toNat_digitChar_of_lt_ten hd]
  omega

theorem ofDigitChars_concat (ds : List Char) {d : Nat} (hd : d < 10) :
    Nat.ofDigitChars 10 (ds ++ [Nat.digitChar d]) 0 = 10 * Nat.ofDigitChars 10 ds 0 + d := by
  rw [Nat.ofDigitChars_append, Nat.ofDigitChars_cons_digitChar_of_lt_ten hd, Nat.ofDigitChars_nil]

theorem decimalDigits_of_lt_ten {d : Nat} (hd : d < 10) : decimalDigits d = [Nat.digitChar d] :=
  Nat.toDigits_of_lt_base hd

/-- A digit is written behind the others, unless these are zero and are not written. -/
theorem decimalDigits_concat {n d : Nat} (hn : 0 < n) (hd : d < 10) :
    decimalDigits (10 * n + d) = decimalDigits n ++ [Nat.digitChar d] := by
  rw [← decimalDigits_of_lt_ten hd]
  exact (Nat.toDigits_append_toDigits (by decide) hn hd).symm

/-- A run of digits is the number that it denotes, behind zeros. -/
theorem exists_zeros_of_digits {ds : List Char} (hne : ds ≠ [])
    (hds : ∀ c ∈ ds, c.isDigit = true) :
    ∃ k, ds = List.replicate k '0' ++ decimalDigits (Nat.ofDigitChars 10 ds 0) := by
  induction ds using List.reverseRecOn with
  | nil => exact absurd rfl hne
  | append_singleton ds c ih =>
    obtain ⟨d, hd, rfl⟩ := exists_digitChar_of_isDigit (hds c (by simp))
    rw [ofDigitChars_concat ds hd]
    by_cases hnil : ds = []
    · subst hnil
      exact ⟨0, by simp [decimalDigits_of_lt_ten hd]⟩
    obtain ⟨k, hk⟩ := ih hnil fun c hc => hds c (by simp [hc])
    generalize Nat.ofDigitChars 10 ds 0 = n at hk ⊢
    rcases Nat.eq_zero_or_pos n with rfl | hn
    · -- the digits before the last one are all zeros
      refine ⟨k + 1, ?_⟩
      have hzero : decimalDigits 0 = ['0'] := rfl
      rw [hk, hzero, Nat.mul_zero, Nat.zero_add, decimalDigits_of_lt_ten hd,
        List.replicate_succ']
    · exact ⟨k, by rw [decimalDigits_concat hn hd, ← List.append_assoc, ← hk]⟩

theorem ofDigitChars_zeros (k n : Nat) :
    Nat.ofDigitChars 10 (List.replicate k '0' ++ decimalDigits n) 0 = n := by
  rw [Nat.ofDigitChars_append, Nat.ofDigitChars_replicate_zero, Nat.mul_zero]
  exact Nat.ofDigitChars_ten_toDigits

theorem head?_decimalDigits {n : Nat} (h : 1 < (decimalDigits n).length) :
    (decimalDigits n).head? ≠ some '0' := by
  intro hhead
  rw [eq_zero_of_head_decimalDigits hhead] at h
  exact absurd h (by decide)

namespace LabelLayout

/-- The label is the letter `Q` and the number in decimal: two digits or more, and no zero in
front of more than two. -/
def Numbers (label : String) (n : Nat) : Prop :=
  ∃ ds, label.toList = 'Q' :: ds ∧ (∀ c ∈ ds, c.isDigit = true) ∧
    Nat.ofDigitChars 10 ds 0 = n ∧ 2 ≤ ds.length ∧ (2 < ds.length → ds.head? ≠ some '0')

theorem toList_sequentialLabel (n : Nat) :
    (sequentialLabel n).toList =
      'Q' :: (List.replicate (2 - (decimalDigits n).length) '0' ++ decimalDigits n) := by
  simp [sequentialLabel]

theorem numbers_sequentialLabel (n : Nat) : Numbers (sequentialLabel n) n := by
  refine ⟨_, toList_sequentialLabel n, ?_, ofDigitChars_zeros _ n, ?_, ?_⟩
  · intro c hc
    rcases List.mem_append.mp hc with hc | hc
    · rw [List.eq_of_mem_replicate hc]
      rfl
    · exact isDigit_of_mem_decimalDigits hc
  · rw [List.length_append, List.length_replicate]
    omega
  · intro hlong
    rw [List.length_append, List.length_replicate] at hlong
    have hpad : 2 - (decimalDigits n).length = 0 := by omega
    rw [hpad, List.replicate_zero, List.nil_append]
    exact head?_decimalDigits (by omega)

/-- Only one label stands for a number. -/
theorem numbers_iff (label : String) (n : Nat) : Numbers label n ↔ label = sequentialLabel n := by
  constructor
  · rintro ⟨ds, hlabel, hdigits, rfl, hlength, hhead⟩
    have hne : ds ≠ [] := List.ne_nil_of_length_pos (by omega)
    obtain ⟨k, hk⟩ := exists_zeros_of_digits hne hdigits
    apply String.toList_inj.mp
    rw [hlabel, toList_sequentialLabel]
    generalize Nat.ofDigitChars 10 ds 0 = n at hk ⊢
    subst hk
    have hpad : k = 2 - (decimalDigits n).length := by
      rw [List.length_append, List.length_replicate] at hlength hhead
      cases k with
      | zero => omega
      | succ k =>
        -- a zero stands in front, so there are no more than two digits
        have hshort : ¬ 2 < k + 1 + (decimalDigits n).length := fun h => hhead h rfl
        omega
    rw [hpad]
  · rintro rfl
    exact numbers_sequentialLabel n

theorem sequentialLabel_injective : Function.Injective sequentialLabel := by
  intro m n h
  obtain ⟨ds, hm, -, rfl, -⟩ := numbers_sequentialLabel m
  obtain ⟨es, hn, -, rfl, -⟩ := numbers_sequentialLabel n
  rw [h, hn] at hm
  rw [(List.cons.inj hm).2]

/-- The entries of the first qubits, in their order. -/
def numbered (n : Nat) : List (Qubit × String) :=
  (List.range n).map fun i => (⟨UInt32.ofNat i⟩, sequentialLabel i)

theorem mem_numbered_iff (n : UInt32) (q : Qubit) (label : String) :
    (q, label) ∈ numbered n.toNat ↔ q.index < n ∧ label = sequentialLabel q.index.toNat := by
  simp only [numbered, List.mem_map, List.mem_range, Prod.mk.injEq, UInt32.lt_iff_toNat_lt]
  constructor
  · rintro ⟨i, hi, rfl, rfl⟩
    rw [UInt32.toNat_ofNat_of_lt' (Nat.lt_trans hi n.toNat_lt)]
    exact ⟨hi, rfl⟩
  · rintro ⟨hq, rfl⟩
    exact ⟨q.index.toNat, hq, by rw [UInt32.ofNat_toNat], rfl⟩

/-- No two entries share a qubit or a label. -/
theorem apart_numbered (n : UInt32) : ∀ e ∈ numbered n.toNat, ∀ f ∈ numbered n.toNat,
    e.1 = f.1 ↔ e.2 = f.2 := by
  rintro ⟨⟨p⟩, l⟩ he ⟨⟨q⟩, k⟩ hf
  obtain ⟨-, rfl⟩ := (mem_numbered_iff n ⟨p⟩ l).mp he
  obtain ⟨-, rfl⟩ := (mem_numbered_iff n ⟨q⟩ k).mp hf
  rw [sequentialLabel_injective.eq_iff, UInt32.toNat_inj, Qubit.mk.injEq]

theorem pairwise_numbered (n : UInt32) :
    (numbered n.toNat).Pairwise fun e f => e.1.index < f.1.index := by
  rw [numbered, List.pairwise_map]
  refine List.pairwise_lt_range.imp_of_mem fun hi hj hij => ?_
  rw [List.mem_range] at hi hj
  rw [UInt32.lt_iff_toNat_lt, UInt32.toNat_ofNat_of_lt' (Nat.lt_trans hi n.toNat_lt),
    UInt32.toNat_ofNat_of_lt' (Nat.lt_trans hj n.toNat_lt)]
  exact hij

theorem lasts_numbered_iff (n : UInt32) (q : Qubit) (label : String) :
    Lasts (numbered n.toNat) q label ↔ q.index < n ∧ label = sequentialLabel q.index.toNat :=
  (lasts_iff_mem (apart_numbered n) q label).trans (mem_numbered_iff n q label)

theorem records_sequential (n : UInt32) : (sequential n).Records (numbered n.toNat) :=
  Records.ofList _

theorem labelOf?_sequential (n : UInt32) (q : Qubit) :
    (sequential n).labelOf? q =
      if q.index < n then some (sequentialLabel q.index.toNat) else none := by
  ext label
  rw [(records_sequential n).label, lasts_numbered_iff, Option.ite_none_right_eq_some,
    Option.some.injEq, eq_comm]

theorem qubitOf?_sequential_iff (n : UInt32) (q : Qubit) (label : String) :
    (sequential n).qubitOf? label = some q ↔ q.index < n ∧ Numbers label q.index.toNat := by
  rw [(records_sequential n).qubit, lasts_numbered_iff, numbers_iff]

/-- Everything that was added is still there, in the order of the qubits. -/
theorem toList_sequential (n : UInt32) : (sequential n).toList = numbered n.toNat := by
  have : Std.Antisymm fun e f : Qubit × String => e.1.index < f.1.index :=
    ⟨fun _ _ h h' => absurd (UInt32.lt_trans h h') (UInt32.lt_irrefl _)⟩
  have : Std.Irrefl fun e f : Qubit × String => e.1.index < f.1.index :=
    ⟨fun _ => UInt32.lt_irrefl _⟩
  refine (pairwise_toList _).eq_of_mem_iff (pairwise_numbered n) ?_
  rintro ⟨q, label⟩
  rw [mem_toList_iff, (records_sequential n).label, lasts_iff_mem (apart_numbered n)]

theorem size_sequential (n : UInt32) : (sequential n).size = n.toNat := by
  have hlength : (sequential n).toList.length = n.toNat := by
    rw [toList_sequential, numbered, List.length_map, List.length_range]
  rw [← hlength]
  exact Std.ExtTreeMap.length_toList.symm

/-- The label of a qubit leads back to it, and to no qubit that is not one of the first. -/
theorem qubitOf?_sequentialLabel (n : UInt32) (q : Qubit) :
    (sequential n).qubitOf? (sequentialLabel q.index.toNat) =
      if q.index < n then some q else none := by
  ext p
  rw [qubitOf?_sequential_iff, numbers_iff, sequentialLabel_injective.eq_iff, UInt32.toNat_inj,
    Option.ite_none_right_eq_some, Option.some.injEq]
  constructor
  · rintro ⟨hp, hq⟩
    rw [hq]
    exact ⟨hp, congrArg Qubit.mk hq⟩
  · rintro ⟨hq, rfl⟩
    exact ⟨hq, rfl⟩

theorem qubitOf?_sequential_eq_none_iff (n : UInt32) (label : String) :
    (sequential n).qubitOf? label = none ↔ ¬ ∃ i < n.toNat, Numbers label i := by
  rw [Option.eq_none_iff_forall_ne_some, not_exists]
  constructor
  · rintro hnone i ⟨hi, hlabel⟩
    have hindex : (UInt32.ofNat i).toNat = i :=
      UInt32.toNat_ofNat_of_lt' (Nat.lt_trans hi n.toNat_lt)
    apply hnone ⟨UInt32.ofNat i⟩
    rw [qubitOf?_sequential_iff, UInt32.lt_iff_toNat_lt, hindex]
    exact ⟨hi, hlabel⟩
  · intro hnone q hq
    obtain ⟨hlt, hlabel⟩ := (qubitOf?_sequential_iff n q label).mp hq
    exact hnone q.index.toNat ⟨UInt32.lt_iff_toNat_lt.mp hlt, hlabel⟩

/-- Of the first qubits each has its own number as a label, and the label leads back to it. They
are counted and listed in their order, no other qubit has a label, and a text that is not the
number of one of them, written in just this way, is no label. -/
theorem lookups_of_sequential (n : UInt32) :
    (sequential n).size = n.toNat ∧
    (sequential n).toList =
      (List.range n.toNat).map (fun i => (⟨UInt32.ofNat i⟩, sequentialLabel i)) ∧
    (∀ q, (sequential n).labelOf? q =
      if q.index < n then some (sequentialLabel q.index.toNat) else none) ∧
    (∀ q, (sequential n).qubitOf? (sequentialLabel q.index.toNat) =
      if q.index < n then some q else none) ∧
    (∀ q label, (sequential n).qubitOf? label = some q ↔
      q.index < n ∧ Numbers label q.index.toNat) ∧
    ∀ label, (sequential n).qubitOf? label = none ↔ ¬ ∃ i < n.toNat, Numbers label i :=
  ⟨size_sequential n, toList_sequential n, labelOf?_sequential n, qubitOf?_sequentialLabel n,
    qubitOf?_sequential_iff n, qubitOf?_sequential_eq_none_iff n⟩

example : (sequential 12).qubitOf? "Q05" = some ⟨5⟩ ∧ (sequential 12).qubitOf? "Q5" = none ∧
    (sequential 12).qubitOf? "Q005" = none ∧ (sequential 12).qubitOf? "Q12" = none := by
  decide +kernel

end LabelLayout
end PulseScript
