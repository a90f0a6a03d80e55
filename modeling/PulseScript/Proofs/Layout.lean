import Mathlib
import PulseScript.Layout

/-!
# What a layout holds

A layout keeps two maps, and every entry that is added takes the place of what either map
held for its qubit or for its label. So the maps are inverse to each other after any number
of additions, and an entry is in them exactly if nothing added after it spoke for its qubit
or for its label alone.
-/
namespace PulseScript
namespace LabelLayout

/-- The entry was added, and whatever was added later for its qubit was for its label, and the
other way round. -/
def Lasts (entries : List (Qubit × String)) (q : Qubit) (label : String) : Prop :=
  ∃ front back, entries = front ++ (q, label) :: back ∧ ∀ e ∈ back, e.1 = q ↔ e.2 = label

theorem not_lasts_nil (q : Qubit) (label : String) : ¬ Lasts [] q label := by
  rintro ⟨front, back, h, -⟩
  exact absurd h (by simp)

/-- A new entry lasts, and the others do unless it takes the qubit or the label of one. -/
theorem lasts_concat_iff (entries : List (Qubit × String)) (e : Qubit × String) (q : Qubit)
    (label : String) :
    Lasts (entries ++ [e]) q label ↔
      e = (q, label) ∨ (Lasts entries q label ∧ (e.1 = q ↔ e.2 = label)) := by
  constructor
  · rintro ⟨front, back, hsplit, hback⟩
    rcases List.eq_nil_or_concat back with rfl | ⟨back, last, rfl⟩
    · exact .inl (by simpa using (List.append_inj' hsplit rfl).2)
    · rw [List.concat_eq_append, ← List.cons_append, ← List.append_assoc] at hsplit
      obtain ⟨rfl, hlast⟩ := List.append_inj' hsplit rfl
      obtain rfl : e = last := by simpa using hlast
      exact .inr ⟨⟨front, back, rfl, fun f hf => hback f (by simp [hf])⟩, hback e (by simp)⟩
  · rintro (rfl | ⟨⟨front, back, rfl, hback⟩, he⟩)
    · exact ⟨entries, [], rfl, by simp⟩
    · refine ⟨front, back ++ [e], by simp, fun f hf => ?_⟩
      rcases List.mem_append.mp hf with hf | hf
      · exact hback f hf
      · rw [List.mem_singleton.mp hf]
        exact he

/-- Where no two entries share a qubit or a label, all of them last. -/
theorem lasts_iff_mem {entries : List (Qubit × String)}
    (h : ∀ e ∈ entries, ∀ f ∈ entries, e.1 = f.1 ↔ e.2 = f.2) (q : Qubit) (label : String) :
    Lasts entries q label ↔ (q, label) ∈ entries := by
  constructor
  · rintro ⟨front, back, rfl, -⟩
    simp
  · intro hmem
    obtain ⟨front, back, rfl⟩ := List.append_of_mem hmem
    exact ⟨front, back, rfl, fun e he => h e (by simp [he]) (q, label) hmem⟩

theorem getElem?_freeLabel (l : LabelLayout) (q p : Qubit) (label : String) (hp : q ≠ p) :
    (l.freeLabel q label)[p]? = if l.qubitOf? label = some p then none else l.labelOf? p := by
  unfold freeLabel
  split
  · rename_i old hold
    by_cases hsame : old = q
    · simp [qubitOf?, labelOf?, hold, hsame, hp]
    · simp [qubitOf?, labelOf?, hold, hsame, Std.ExtTreeMap.getElem?_erase,
        Std.LawfulEqCmp.compare_eq_iff_eq]
  · rename_i hnone
    simp [qubitOf?, labelOf?, hnone]

theorem getElem?_freeQubit (l : LabelLayout) (q : Qubit) (label other : String)
    (hl : label ≠ other) :
    (l.freeQubit q label)[other]? =
      if l.labelOf? q = some other then none else l.qubitOf? other := by
  unfold freeQubit
  split
  · rename_i old hold
    by_cases hsame : old = label
    · simp [qubitOf?, labelOf?, hold, hsame, hl]
    · simp [qubitOf?, labelOf?, hold, hsame, Std.ExtTreeMap.getElem?_erase,
        Std.LawfulEqCmp.compare_eq_iff_eq]
  · rename_i hnone
    simp [qubitOf?, labelOf?, hnone]

/-- The qubit gets the label, and the qubit that had it before has none. -/
theorem labelOf?_add (l : LabelLayout) (q p : Qubit) (label : String) :
    (l.add q label).labelOf? p =
      if q = p then some label
      else if l.qubitOf? label = some p then none else l.labelOf? p := by
  rw [labelOf?, add, Std.ExtTreeMap.getElem?_insert]
  by_cases hp : q = p
  · simp [hp]
  · simp [hp, Std.LawfulEqCmp.compare_eq_iff_eq, getElem?_freeLabel]

/-- The label gets the qubit, and the label that had it before has none. -/
theorem qubitOf?_add (l : LabelLayout) (q : Qubit) (label other : String) :
    (l.add q label).qubitOf? other =
      if label = other then some q
      else if l.labelOf? q = some other then none else l.qubitOf? other := by
  rw [qubitOf?, add, Std.ExtTreeMap.getElem?_insert]
  by_cases hl : label = other
  · simp [hl]
  · simp [hl, Std.LawfulEqCmp.compare_eq_iff_eq, getElem?_freeQubit]

structure Records (l : LabelLayout) (entries : List (Qubit × String)) : Prop where
  label : ∀ q label, l.labelOf? q = some label ↔ Lasts entries q label
  qubit : ∀ q label, l.qubitOf? label = some q ↔ Lasts entries q label

namespace Records

variable {l : LabelLayout} {entries : List (Qubit × String)}

theorem empty : LabelLayout.empty.Records [] := by
  constructor <;> intro q label <;>
    simp [LabelLayout.empty, labelOf?, qubitOf?, not_lasts_nil]

/-- A qubit has the label exactly if the label has the qubit. -/
theorem labelOf?_iff (h : l.Records entries) (q : Qubit) (label : String) :
    l.labelOf? q = some label ↔ l.qubitOf? label = some q :=
  (h.label q label).trans (h.qubit q label).symm

/-- An addition leaves an entry alone unless it takes its qubit or its label. -/
theorem add (h : l.Records entries) (p : Qubit) (name : String) :
    (l.add p name).Records (entries ++ [(p, name)]) := by
  constructor
  · intro q label
    simp only [lasts_concat_iff, labelOf?_add, ← h.label q label, ← h.labelOf?_iff q name,
      Prod.mk.injEq]
    by_cases hp : p = q
    · by_cases hl : name = label <;> simp [hp, hl]
    · simp only [hp, if_false, false_and, false_or, false_iff]
      cases l.labelOf? q with
      | none => simp
      | some old => by_cases hold : old = name <;> grind
  · intro q label
    simp only [lasts_concat_iff, qubitOf?_add, ← h.qubit q label, h.labelOf?_iff p label,
      Prod.mk.injEq]
    by_cases hl : name = label
    · by_cases hp : p = q <;> simp [hp, hl]
    · simp only [hl, if_false, and_false, false_or, iff_false]
      cases l.qubitOf? label with
      | none => simp
      | some old => by_cases hold : old = p <;> grind

theorem ofList (entries : List (Qubit × String)) :
    (LabelLayout.ofList entries).Records entries := by
  induction entries using List.reverseRecOn with
  | nil => exact empty
  | append_singleton entries e ih =>
    rw [LabelLayout.ofList, List.foldl_append]
    exact ih.add e.1 e.2

end Records

theorem mem_toList_iff (l : LabelLayout) (q : Qubit) (label : String) :
    (q, label) ∈ l.toList ↔ l.labelOf? q = some label :=
  Std.ExtTreeMap.mem_toList_iff_getElem?_eq_some

/-- The entries stand in the order of their qubits. -/
theorem pairwise_toList (l : LabelLayout) :
    l.toList.Pairwise fun e f => e.1.index < f.1.index :=
  l.labels.ordered_keys_toList.imp fun h => compareOfLessAndEq_eq_lt.mp h

theorem nodup_toList (l : LabelLayout) : l.toList.Nodup :=
  (pairwise_toList l).imp fun h he => absurd (he ▸ h) (UInt32.lt_irrefl _)

/-- After any additions to an empty layout the label of a qubit and the qubit of a label are
inverse to each other, and they are the entries that last, which are counted and listed. -/
theorem lookups_of_ofList (entries : List (Qubit × String)) :
    (∀ q label, (ofList entries).labelOf? q = some label ↔
      (ofList entries).qubitOf? label = some q) ∧
    (∀ q label, (ofList entries).labelOf? q = some label ↔ Lasts entries q label) ∧
    (ofList entries).size = {e : Qubit × String | Lasts entries e.1 e.2}.encard ∧
    (∀ e, e ∈ (ofList entries).toList ↔ Lasts entries e.1 e.2) ∧
    (ofList entries).toList.Pairwise fun e f => e.1.index < f.1.index := by
  have h := Records.ofList entries
  have hmem : ∀ e : Qubit × String, e ∈ (ofList entries).toList ↔ Lasts entries e.1 e.2 :=
    fun e => (mem_toList_iff _ e.1 e.2).trans (h.label e.1 e.2)
  refine ⟨h.labelOf?_iff, h.label, ?_, hmem, pairwise_toList _⟩
  have hset : {e : Qubit × String | Lasts entries e.1 e.2} = (ofList entries).toList.toFinset := by
    ext e
    simp [hmem]
  rw [hset, Set.encard_coe_eq_coe_finsetCard, List.toFinset_card_of_nodup (nodup_toList _)]
  exact congrArg Nat.cast Std.ExtTreeMap.length_toList.symm

end LabelLayout
end PulseScript
