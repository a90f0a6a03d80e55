import Mathlib
import PulseScript.Couplers

/-!
# The index of a coupler registry

A registry is made from a map or grown entry by entry. Either way its index holds, for
every unordered pair of labels, the smallest name of a coupler that joins the pair, and
nothing for a pair without a coupler.
-/
namespace PulseScript

namespace LabelPair

theorem of_comm (a b : String) : of a b = of b a := by
  unfold of
  by_cases hab : a ≤ b
  · by_cases hba : b ≤ a
    · rw [if_pos hab, if_pos hba, le_antisymm hab hba]
    · rw [if_pos hab, if_neg hba]
  · rw [if_neg hab, if_pos (le_of_not_ge hab)]

/-- Pairs have one key only if they are the same up to their order. -/
theorem of_eq_of_iff (a b c d : String) :
    of a b = of c d ↔ (c = a ∧ d = b) ∨ (c = b ∧ d = a) := by
  constructor
  · intro h
    unfold of at h
    split at h <;> split at h <;> simp only [mk.injEq] at h <;> obtain ⟨h1, h2⟩ := h
    · exact .inl ⟨h1.symm, h2.symm⟩
    · exact .inr ⟨h2.symm, h1.symm⟩
    · exact .inr ⟨h1.symm, h2.symm⟩
    · exact .inl ⟨h2.symm, h1.symm⟩
  · rintro (⟨rfl, rfl⟩ | ⟨rfl, rfl⟩)
    · rfl
    · exact of_comm _ _

end LabelPair

namespace CouplerRegistry

inductive Reachable : CouplerRegistry → Prop where
  | empty : Reachable .empty
  | ofPairs (pairs : Std.ExtTreeMap String (String × String)) : Reachable (.ofPairs pairs)
  | insert {r : CouplerRegistry} (h : Reachable r) (name a b : String) :
    Reachable (r.insert name a b)

theorem nameFor?_comm (r : CouplerRegistry) (a b : String) : r.nameFor? a b = r.nameFor? b a := by
  rw [nameFor?, nameFor?, LabelPair.of_comm]

def Joins (r : CouplerRegistry) (name : String) (key : LabelPair) : Prop :=
  ∃ a b, r.pairFor? name = some (a, b) ∧ LabelPair.of a b = key

/-- The coupler is the one with the smallest name that joins the pair. -/
def IsLeast (r : CouplerRegistry) (name : String) (key : LabelPair) : Prop :=
  r.Joins name key ∧ ∀ other, r.Joins other key → name ≤ other

/-- The index holds the smallest name of every pair that has a coupler. -/
structure Indexed (r : CouplerRegistry) : Prop where
  least : ∀ {key name}, r.index[key]? = some name → r.IsLeast name key
  covers : ∀ {key name}, r.Joins name key → ∃ known, r.index[key]? = some known

/-- Entering names one by one keeps the first of each pair. -/
theorem getElem?_foldl_insertIfNew (entries : List (String × (String × String)))
    (index : Std.ExtTreeMap LabelPair String) (key : LabelPair) :
    (entries.foldl (fun index e => index.insertIfNew (.of e.2.1 e.2.2) e.1) index)[key]? =
      index[key]?.or ((entries.find? fun e => LabelPair.of e.2.1 e.2.2 = key).map (·.1)) := by
  induction entries generalizing index with
  | nil => simp
  | cons e es ih =>
    rw [List.foldl_cons, ih, Std.ExtTreeMap.getElem?_insertIfNew]
    by_cases hk : LabelPair.of e.2.1 e.2.2 = key
    · subst hk
      by_cases hm : LabelPair.of e.2.1 e.2.2 ∈ index
      · simp [hm]
      · simp [hm]
    · simp [hk]

theorem getElem?_indexOf (entries : List (String × (String × String))) (key : LabelPair) :
    (indexOf entries)[key]? =
      (entries.find? fun e => LabelPair.of e.2.1 e.2.2 = key).map (·.1) := by
  rw [indexOf, getElem?_foldl_insertIfNew]
  simp

/-- The entries of a map stand in the order of their names. -/
theorem pairwise_names (pairs : Std.ExtTreeMap String (String × String)) :
    pairs.toList.Pairwise fun e f => e.1 < f.1 :=
  pairs.ordered_keys_toList.imp fun h => compareOfLessAndEq_eq_lt.mp h

theorem indexed_ofPairs (pairs : Std.ExtTreeMap String (String × String)) :
    (ofPairs pairs).Indexed := by
  have hmem : ∀ n a b, (n, (a, b)) ∈ pairs.toList ↔ (ofPairs pairs).pairFor? n = some (a, b) :=
    fun n a b => Std.ExtTreeMap.mem_toList_iff_getElem?_eq_some
  constructor
  · intro key n h
    rw [ofPairs, getElem?_indexOf, Option.map_eq_some_iff] at h
    obtain ⟨⟨m, a, b⟩, hfind, rfl⟩ := h
    obtain ⟨hkey, front, back, hsplit, hfront⟩ := List.find?_eq_some_iff_append.mp hfind
    refine ⟨⟨a, b, (hmem m a b).mp (by simp [hsplit]), by simpa using hkey⟩, ?_⟩
    rintro other ⟨c, d, hpair, hother⟩
    have hin := (hmem other c d).mpr hpair
    have hord := pairwise_names pairs
    rw [hsplit] at hin hord
    -- nothing before the entry found has its key, and what follows it has a larger name
    rcases List.mem_append.mp hin with hin | hin
    · exact absurd hother (by simpa using hfront _ hin)
    · rcases List.mem_cons.mp hin with hin | hin
      · exact le_of_eq (congrArg Prod.fst hin).symm
      · exact ((List.pairwise_cons.mp (List.pairwise_append.mp hord).2.1).1 _ hin).le
  · rintro key n ⟨a, b, hpair, hkey⟩
    rw [← Option.isSome_iff_exists, ofPairs, getElem?_indexOf, Option.isSome_map,
      List.find?_isSome]
    exact ⟨(n, (a, b)), (hmem n a b).mpr hpair, by simpa using hkey⟩

theorem pairFor?_insert (r : CouplerRegistry) (name a b other : String) :
    (r.insert name a b).pairFor? other = if name = other then some (a, b) else r.pairFor? other := by
  have hpairs : (r.insert name a b).pairs = r.pairs.insert name (a, b) := by
    simp only [insert, ofPairs]
    split
    · rfl
    · split
      · split <;> rfl
      · rfl
  simp only [pairFor?, hpairs, Std.ExtTreeMap.getElem?_insert, Std.LawfulEqCmp.compare_eq_iff_eq]

/-- A new name joins one pair and leaves the other couplers alone. -/
theorem joins_insert_iff {r : CouplerRegistry} {name : String} (hnew : r.pairFor? name = none)
    (a b other : String) (key : LabelPair) :
    (r.insert name a b).Joins other key ↔
      (other = name ∧ LabelPair.of a b = key) ∨ r.Joins other key := by
  simp only [Joins, pairFor?_insert]
  by_cases ho : name = other
  · subst ho
    simp [hnew]
  · simp [ho, Ne.symm ho]

/-- A new name takes the place of a larger one for its pair. -/
theorem getElem?_index_insert {r : CouplerRegistry} {name : String}
    (hnew : r.pairFor? name = none) (a b : String) (key : LabelPair) :
    (r.insert name a b).index[key]? =
      if LabelPair.of a b = key then some (r.index[key]?.elim name fun known => min known name)
      else r.index[key]? := by
  have hcontains : ¬ r.pairs.contains name := by
    rw [Std.ExtTreeMap.contains_eq_isSome_getElem?, show r.pairs[name]? = none from hnew]
    simp
  have hentered : (r.index.insert (LabelPair.of a b) name)[key]? =
      if LabelPair.of a b = key then some name else r.index[key]? := by
    simp only [Std.ExtTreeMap.getElem?_insert, Std.LawfulEqCmp.compare_eq_iff_eq]
  rw [insert, if_neg hcontains]
  dsimp only
  by_cases hkey : LabelPair.of a b = key
  · subst hkey
    cases hknown : r.index[LabelPair.of a b]? with
    | none => simp
    | some known =>
      by_cases hle : known ≤ name
      · simp [hle, hknown]
      · simp [hle, min_eq_right (le_of_not_ge hle)]
  · split
    · split <;> simp [hkey, hentered]
    · simp [hkey, hentered]

/-- The name that the index then holds for the pair is the smallest. -/
theorem Indexed.isLeast_insert {r : CouplerRegistry} (h : r.Indexed) {name : String}
    (hnew : r.pairFor? name = none) (a b : String) :
    (r.insert name a b).IsLeast
      (r.index[LabelPair.of a b]?.elim name fun known => min known name) (.of a b) := by
  constructor
  · rw [joins_insert_iff hnew]
    cases hknown : r.index[LabelPair.of a b]? with
    | none => exact .inl ⟨rfl, rfl⟩
    | some known =>
      rcases min_choice known name with hm | hm
      · exact .inr (by simpa [hm] using (h.least hknown).1)
      · exact .inl ⟨by simpa using hm, rfl⟩
  · intro other ho
    rcases (joins_insert_iff hnew a b other _).mp ho with ⟨rfl, -⟩ | ho
    · cases r.index[LabelPair.of a b]? with
      | none => exact le_refl _
      | some known => exact min_le_right _ _
    · obtain ⟨known, hknown⟩ := h.covers ho
      rw [hknown]
      exact (min_le_left known name).trans ((h.least hknown).2 other ho)

/-- A new name changes nothing for the other pairs. -/
theorem joins_insert_of_ne {r : CouplerRegistry} {name : String} (hnew : r.pairFor? name = none)
    {a b : String} {key : LabelPair} (hkey : LabelPair.of a b ≠ key) (other : String) :
    (r.insert name a b).Joins other key ↔ r.Joins other key := by
  rw [joins_insert_iff hnew]
  simp [hkey]

theorem Indexed.insert {r : CouplerRegistry} (h : r.Indexed) (name a b : String) :
    (r.insert name a b).Indexed := by
  by_cases hcontains : r.pairs.contains name
  · rw [CouplerRegistry.insert, if_pos hcontains]
    exact indexed_ofPairs _
  have hnew : r.pairFor? name = none := Std.ExtTreeMap.getElem?_eq_none (by simpa using hcontains)
  constructor
  · intro key n hn
    rw [getElem?_index_insert hnew] at hn
    by_cases hkey : LabelPair.of a b = key
    · subst hkey
      rw [if_pos rfl, Option.some.injEq] at hn
      exact hn ▸ h.isLeast_insert hnew a b
    · rw [if_neg hkey] at hn
      refine ⟨(joins_insert_of_ne hnew hkey n).mpr (h.least hn).1, fun other ho => ?_⟩
      exact (h.least hn).2 other ((joins_insert_of_ne hnew hkey other).mp ho)
  · intro key n hn
    rw [getElem?_index_insert hnew]
    by_cases hkey : LabelPair.of a b = key
    · exact ⟨_, if_pos hkey⟩
    · rw [if_neg hkey]
      exact h.covers ((joins_insert_of_ne hnew hkey n).mp hn)

theorem Reachable.indexed {r : CouplerRegistry} (h : r.Reachable) : r.Indexed := by
  induction h with
  | empty => exact ⟨fun h => by simp [CouplerRegistry.empty] at h,
      fun ⟨_, _, h, _⟩ => by simp [CouplerRegistry.empty, pairFor?] at h⟩
  | ofPairs pairs => exact indexed_ofPairs pairs
  | insert _ name a b ih => exact ih.insert name a b

/-- The index holds a name for a pair exactly if it is the smallest that joins the pair. -/
theorem Indexed.getElem?_index_eq_some_iff {r : CouplerRegistry} (h : r.Indexed)
    (key : LabelPair) (name : String) : r.index[key]? = some name ↔ r.IsLeast name key := by
  constructor
  · exact h.least
  · intro hname
    obtain ⟨known, hknown⟩ := h.covers hname.1
    have hleast := h.least hknown
    have hsame : known = name :=
      le_antisymm (hleast.2 name hname.1) (hname.2 known hleast.1)
    rw [hknown, hsame]

theorem joins_of_iff (r : CouplerRegistry) (name a b : String) :
    r.Joins name (.of a b) ↔ r.pairFor? name = some (a, b) ∨ r.pairFor? name = some (b, a) := by
  constructor
  · rintro ⟨c, d, hpair, hkey⟩
    rcases (LabelPair.of_eq_of_iff c d a b).mp hkey with ⟨rfl, rfl⟩ | ⟨rfl, rfl⟩
    · exact .inl hpair
    · exact .inr hpair
  · rintro (h | h)
    · exact ⟨a, b, h, rfl⟩
    · exact ⟨b, a, h, LabelPair.of_comm b a⟩

/-- The coupler that is found for two labels joins them, in one order or the other. -/
theorem Indexed.pairFor?_of_nameFor? {r : CouplerRegistry} (h : r.Indexed) {name a b : String}
    (hname : r.nameFor? a b = some name) :
    r.pairFor? name = some (a, b) ∨ r.pairFor? name = some (b, a) :=
  (joins_of_iff r name a b).mp (h.least hname).1

/-- A coupler is found for two labels exactly if one joins them. -/
theorem Indexed.exists_nameFor?_iff {r : CouplerRegistry} (h : r.Indexed) (a b : String) :
    (∃ name, r.nameFor? a b = some name) ↔
      ∃ name, r.pairFor? name = some (a, b) ∨ r.pairFor? name = some (b, a) := by
  constructor
  · rintro ⟨name, hname⟩
    exact ⟨name, h.pairFor?_of_nameFor? hname⟩
  · rintro ⟨name, hpair⟩
    exact h.covers ((joins_of_iff r name a b).mpr hpair)

/-- Entering couplers one after the other leaves for every name the pair that was given last. -/
theorem pairFor?_foldl_insert (entries : List (String × (String × String))) (r : CouplerRegistry)
    (name : String) :
    (entries.foldl (fun r e => r.insert e.1 e.2.1 e.2.2) r).pairFor? name =
      ((entries.reverse.find? fun e => e.1 = name).map (·.2)).or (r.pairFor? name) := by
  induction entries generalizing r with
  | nil => simp
  | cons e es ih =>
    rw [List.foldl_cons, ih, pairFor?_insert, List.reverse_cons, List.find?_append]
    cases es.reverse.find? (fun e => e.1 = name) with
    | some f => simp
    | none => by_cases he : e.1 = name <;> simp [he]

theorem Reachable.foldl_insert {r : CouplerRegistry} (h : r.Reachable)
    (entries : List (String × (String × String))) :
    (entries.foldl (fun r e => r.insert e.1 e.2.1 e.2.2) r).Reachable := by
  induction entries generalizing r with
  | nil => exact h
  | cons e es ih => exact ih (h.insert e.1 e.2.1 e.2.2)

/-- A registry after the calls that made it, with the pair that these gave last for each
name. -/
inductive History : CouplerRegistry → (String → Option (String × String)) → Prop where
  | empty : History .empty fun _ => none
  | ofList (entries : List (String × (String × String))) :
    History (.ofList entries) fun name => (entries.reverse.find? fun e => e.1 = name).map (·.2)
  | ofPairs (pairs : Std.ExtTreeMap String (String × String)) :
    History (.ofPairs pairs) fun name => pairs[name]?
  | insert {r : CouplerRegistry} {given : String → Option (String × String)}
    (h : History r given) (name a b : String) :
    History (r.insert name a b) (Function.update given name (some (a, b)))

namespace History

variable {r : CouplerRegistry} {given : String → Option (String × String)}

theorem reachable (h : History r given) : r.Reachable := by
  induction h with
  | empty => exact .empty
  | ofList entries => exact Reachable.empty.foldl_insert entries
  | ofPairs pairs => exact .ofPairs pairs
  | insert _ name a b ih => exact ih.insert name a b

/-- The pair of a name is the one that was given last. -/
theorem pairFor?_eq (h : History r given) (name : String) : r.pairFor? name = given name := by
  induction h with
  | empty => rfl
  | ofList entries =>
    rw [CouplerRegistry.ofList, pairFor?_foldl_insert]
    simp [CouplerRegistry.empty, pairFor?]
  | ofPairs pairs => rfl
  | insert _ other a b ih =>
    rw [pairFor?_insert, Function.update_apply, ih]
    simp only [eq_comm]

/-- A pair was given last for exactly the couplers that are listed. -/
theorem mem_toList_iff (h : History r given) (name : String) (pair : String × String) :
    (name, pair) ∈ r.toList ↔ given name = some pair := by
  rw [← h.pairFor?_eq]
  exact Std.ExtTreeMap.mem_toList_iff_getElem?_eq_some

theorem joins_of_iff (h : History r given) (name a b : String) :
    r.Joins name (.of a b) ↔ given name = some (a, b) ∨ given name = some (b, a) := by
  rw [CouplerRegistry.joins_of_iff, h.pairFor?_eq]

/-- The name found for two labels is the smallest of all that were last given the two. -/
theorem nameFor?_eq_some_iff (h : History r given) (a b name : String) :
    r.nameFor? a b = some name ↔
      (given name = some (a, b) ∨ given name = some (b, a)) ∧
        ∀ other, given other = some (a, b) ∨ given other = some (b, a) → name ≤ other := by
  simp only [← h.joins_of_iff]
  exact h.reachable.indexed.getElem?_index_eq_some_iff (.of a b) name

theorem nameFor?_eq_none_iff (h : History r given) (a b : String) :
    r.nameFor? a b = none ↔ ∀ name, given name ≠ some (a, b) ∧ given name ≠ some (b, a) := by
  have hsome := h.reachable.indexed.exists_nameFor?_iff a b
  simp only [h.pairFor?_eq] at hsome
  rw [Option.eq_none_iff_forall_ne_some, ← not_exists, hsome]
  simp only [not_exists, not_or, ne_eq]

end History

/-- After any history the pair of a name is the one given last, and two labels in either
order find the smallest of the names whose pair they are now, or none if there is none. -/
theorem History.lookups {r : CouplerRegistry} {given : String → Option (String × String)}
    (h : History r given) (a b : String) :
    (∀ name, r.pairFor? name = given name) ∧
    (∀ name pair, (name, pair) ∈ r.toList ↔ given name = some pair) ∧
    r.nameFor? a b = r.nameFor? b a ∧
    (r.nameFor? a b = none ↔
      ∀ name, (name, (a, b)) ∉ r.toList ∧ (name, (b, a)) ∉ r.toList) ∧
    (∀ name, r.nameFor? a b = some name ↔
      ((name, (a, b)) ∈ r.toList ∨ (name, (b, a)) ∈ r.toList) ∧
        ∀ other, (other, (a, b)) ∈ r.toList ∨ (other, (b, a)) ∈ r.toList → name ≤ other) ∧
    ∀ name, r.nameFor? a b = some name →
      r.pairFor? name = some (a, b) ∨ r.pairFor? name = some (b, a) := by
  refine ⟨h.pairFor?_eq, h.mem_toList_iff, nameFor?_comm r a b, ?_, ?_, ?_⟩
  · simpa only [h.mem_toList_iff] using h.nameFor?_eq_none_iff a b
  · simpa only [h.mem_toList_iff] using h.nameFor?_eq_some_iff a b
  · exact fun _ => h.reachable.indexed.pairFor?_of_nameFor?

/-- A coupler behind a smaller name is found again when that name moves to another pair. -/
theorem lookups_uncovered :
    let r := (ofList [("G2", ("A", "B")), ("G1", ("B", "A"))]).insert "G1" "B" "C"
    r.nameFor? "A" "B" = some "G2" ∧ r.pairFor? "G1" = some ("B", "C") := by
  have h := (History.ofList [("G2", ("A", "B")), ("G1", ("B", "A"))]).insert "G1" "B" "C"
  obtain ⟨hpair, hlist, -, -, hleast, -⟩ := h.lookups "A" "B"
  refine ⟨(hleast "G2").mpr ?_, hpair "G1"⟩
  simp only [hlist]
  refine ⟨.inl (by decide), fun other hother => ?_⟩
  by_cases h1 : other = "G1"
  · subst h1
    exact absurd hother (by decide)
  · by_cases h2 : other = "G2"
    · exact h2.ge
    · simp [Function.update_of_ne h1, Ne.symm h1, Ne.symm h2] at hother

end CouplerRegistry
end PulseScript
