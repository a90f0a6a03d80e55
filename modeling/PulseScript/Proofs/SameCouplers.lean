import Mathlib
import PulseScript.Proofs.Couplers

/-!
# Registries with the same couplers

A registry keeps an index beside its couplers. The index is kept up entry by entry, or built
in one go, but it never remembers how: the name that it holds for a pair is the smallest that
joins the pair, and there is only one. So two registries are equal, index included, exactly if
they hold the same couplers, whatever calls have led to them.
-/
namespace PulseScript
namespace CouplerRegistry

def insertAll (r : CouplerRegistry) (entries : List (String × (String × String))) :
    CouplerRegistry :=
  entries.foldl (fun r e => r.insert e.1 e.2.1 e.2.2) r

def lastPair? (entries : List (String × (String × String))) (name : String) :
    Option (String × String) :=
  (entries.reverse.find? fun e => e.1 = name).map (·.2)

variable {r s : CouplerRegistry}

theorem insertAll_empty (entries : List (String × (String × String))) :
    empty.insertAll entries = ofList entries := rfl

/-- Which name is the smallest for a pair can be seen without the index. -/
theorem isLeast_congr (h : r.pairs = s.pairs) (name : String) (key : LabelPair) :
    r.IsLeast name key ↔ s.IsLeast name key := by
  simp only [IsLeast, Joins, pairFor?, h]

theorem Indexed.index_eq (hr : r.Indexed) (hs : s.Indexed) (h : r.pairs = s.pairs) :
    r.index = s.index := by
  apply Std.ExtTreeMap.ext_getElem?
  intro key
  ext name
  rw [hr.getElem?_index_eq_some_iff, hs.getElem?_index_eq_some_iff, isLeast_congr h]

theorem Indexed.eq_iff_pairs (hr : r.Indexed) (hs : s.Indexed) : r = s ↔ r.pairs = s.pairs := by
  constructor
  · intro h
    rw [h]
  · intro h
    have hindex : r.index = s.index := hr.index_eq hs h
    cases r
    cases s
    rw [mk.injEq]
    exact ⟨h, hindex⟩

theorem Indexed.eq_iff_pairFor? (hr : r.Indexed) (hs : s.Indexed) :
    r = s ↔ ∀ name, r.pairFor? name = s.pairFor? name := by
  rw [hr.eq_iff_pairs hs]
  constructor
  · intro h name
    rw [pairFor?, pairFor?, h]
  · exact fun h => Std.ExtTreeMap.ext_getElem? h

/-- The index that a registry was reached with is the one that its couplers are given anew. -/
theorem ofPairs_pairs_eq (h : r.Reachable) : ofPairs r.pairs = r :=
  ((indexed_ofPairs r.pairs).eq_iff_pairs h.indexed).mpr rfl

theorem pairFor?_insertAll (r : CouplerRegistry) (entries : List (String × (String × String)))
    (name : String) :
    (r.insertAll entries).pairFor? name = (lastPair? entries name).or (r.pairFor? name) :=
  pairFor?_foldl_insert entries r name

theorem Reachable.insertAll (h : r.Reachable) (entries : List (String × (String × String))) :
    (r.insertAll entries).Reachable :=
  h.foldl_insert entries

/-- Only the pair that each name has in the end tells two series of entries apart. -/
theorem insertAll_eq_iff (hr : r.Reachable) (hs : s.Reachable)
    (xs ys : List (String × (String × String))) :
    r.insertAll xs = s.insertAll ys ↔
      ∀ name, (lastPair? xs name).or (r.pairFor? name) =
        (lastPair? ys name).or (s.pairFor? name) := by
  rw [(hr.insertAll xs).indexed.eq_iff_pairFor? (hs.insertAll ys).indexed]
  simp only [pairFor?_insertAll]

theorem ofList_eq_iff (xs ys : List (String × (String × String))) :
    ofList xs = ofList ys ↔ ∀ name, lastPair? xs name = lastPair? ys name := by
  have hnone : ∀ name, empty.pairFor? name = none := fun _ => rfl
  rw [← insertAll_empty, ← insertAll_empty, insertAll_eq_iff .empty .empty]
  simp only [hnone, Option.or_none]

/-- Two registries, whatever calls have led to them, are equal exactly if every name was given
the same ordered pair last, which is to say that they list the same couplers. A registry is
equal to the one of its own map, which finds the same names, and what is entered one after the
other counts only by the last pair of each name. -/
theorem beq_iff_contents {given known : String → Option (String × String)}
    (hr : History r given) (hs : History s known) :
    ((r == s) = true ↔ ∀ name, given name = known name) ∧
    ((r == s) = true ↔ r.toList = s.toList) ∧
    ((ofPairs r.pairs == r) = true ∧
      ∀ a b, (ofPairs r.pairs).nameFor? a b = r.nameFor? a b) ∧
    ∀ xs ys : List (String × (String × String)),
      ((ofList xs == ofList ys) = true ↔ ∀ name, lastPair? xs name = lastPair? ys name) ∧
      ((∀ name, lastPair? xs name = lastPair? ys name) →
        (r.insertAll xs == r.insertAll ys) = true) := by
  simp only [beq_iff_eq]
  have hri := hr.reachable.indexed
  have hsi := hs.reachable.indexed
  have hmap : ofPairs r.pairs = r := ofPairs_pairs_eq hr.reachable
  refine ⟨?_, ?_, ⟨hmap, fun a b => by rw [hmap]⟩, fun xs ys => ⟨ofList_eq_iff xs ys, ?_⟩⟩
  · rw [hri.eq_iff_pairFor? hsi]
    simp only [hr.pairFor?_eq, hs.pairFor?_eq]
  · rw [hri.eq_iff_pairs hsi]
    exact Std.ExtTreeMap.toList_inj.symm
  · intro h
    rw [insertAll_eq_iff hr.reachable hr.reachable]
    intro name
    rw [h name]

/-- A coupler that was moved to its place later, past a larger name, leaves no trace. -/
theorem beq_movedLater :
    let r := (ofList [("G2", ("A", "B")), ("G1", ("B", "C"))]).insert "G1" "B" "A"
    let s := ofPairs (.ofList [("G1", ("B", "A")), ("G2", ("A", "B"))])
    (r == s) = true ∧
      (r.insertAll [("G3", ("C", "A")), ("G3", ("A", "C"))] ==
        r.insertAll [("G3", ("A", "C"))]) = true := by
  intro r s
  have hr : History r _ :=
    (History.ofList [("G2", ("A", "B")), ("G1", ("B", "C"))]).insert "G1" "B" "A"
  have hs : History s _ := History.ofPairs (.ofList [("G1", ("B", "A")), ("G2", ("A", "B"))])
  obtain ⟨-, hlist, -, hentries⟩ := beq_iff_contents hr hs
  refine ⟨hlist.mpr (by decide +kernel), (hentries _ _).2 fun name => ?_⟩
  by_cases hname : "G3" = name <;> simp [lastPair?, hname]

end CouplerRegistry
end PulseScript
