import Mathlib
import PulseScript.Proofs.Parts

/-!
# Moments as functions of their parts

Once the lines of the nested circuits are found, the lines of a moment are a function of
what its operations add. Two moments whose operations add the same have the same lines,
whatever else is different in them.
-/
namespace PulseScript

theorem sortByKey_perm {α : Type} (xs : List (String × α)) : (sortByKey xs).Perm xs :=
  List.mergeSort_perm xs _

theorem pairwise_sortByKey {α : Type} (xs : List (String × α)) :
    (sortByKey xs).Pairwise fun a b => a.1 ≤ b.1 := by
  have htrans : ∀ a b c : String × α, decide (a.1 ≤ b.1) → decide (b.1 ≤ c.1) →
      decide (a.1 ≤ c.1) := by
    intro a b c hab hbc
    simp only [decide_eq_true_eq] at hab hbc ⊢
    exact String.le_trans hab hbc
  have htotal : ∀ a b : String × α, decide (a.1 ≤ b.1) || decide (b.1 ≤ a.1) := by
    intro a b
    simpa using String.le_total a.1 b.1
  exact (List.pairwise_mergeSort htrans htotal xs).imp fun h => by simpa using h

/-- What keeps the keys can be done before or after sorting. -/
theorem sortByKey_map {α β : Type} (f : String × α → String × β) (hf : ∀ x, (f x).1 = x.1)
    (xs : List (String × α)) : sortByKey (xs.map f) = (sortByKey xs).map f := by
  refine (List.map_mergeSort fun a _ b _ => ?_).symm
  simp only [hf]

/-- Two labelled texts that may stand in either order if they have the same key. -/
def Commuting (x y : String × List String) : Prop := x.1 = y.1 → x.2 ++ y.2 = y.2 ++ x.2

instance : Std.Symm Commuting := ⟨fun _ _ h he => (h he.symm).symm⟩

/-- A text that commutes with each of some texts commutes with all of them together. -/
theorem append_flatMap_comm {xs : List (String × List String)} {lines : List String}
    (h : ∀ x ∈ xs, lines ++ x.2 = x.2 ++ lines) :
    lines ++ xs.flatMap (·.2) = xs.flatMap (·.2) ++ lines := by
  induction xs with
  | nil => simp
  | cons x xs ih =>
    have hrest := ih fun y hy => h y (List.mem_cons_of_mem x hy)
    rw [List.flatMap_cons, ← List.append_assoc, h x (by simp), List.append_assoc, hrest,
      List.append_assoc]

/-- In two sorted lists of the same pairs the order of equal keys may differ. The texts in
them are the same if texts under equal keys commute. -/
theorem flatMap_eq_of_sorted {xs ys : List (String × List String)} (hperm : xs.Perm ys)
    (hxs : xs.Pairwise fun a b => a.1 ≤ b.1) (hys : ys.Pairwise fun a b => a.1 ≤ b.1)
    (hcomm : ∀ a ∈ xs, ∀ b ∈ xs, Commuting a b) : xs.flatMap (·.2) = ys.flatMap (·.2) := by
  induction xs generalizing ys with
  | nil => rw [List.nil_perm.mp hperm]
  | cons a xs ih =>
    -- what stands before the first pair in the other list has the same key
    obtain ⟨front, back, rfl⟩ := List.append_of_mem (hperm.mem_iff.mp (List.mem_cons_self))
    have hrest : xs.Perm (front ++ back) := (hperm.trans List.perm_middle).cons_inv
    have hmem : ∀ b ∈ front, b ∈ xs := fun b hb => hrest.mem_iff.mpr (by simp [hb])
    obtain ⟨hfirst, hsorted⟩ := List.pairwise_cons.mp hxs
    obtain ⟨hfront, hback, hcross⟩ := List.pairwise_append.mp hys
    have hkey : ∀ b ∈ front, a.1 = b.1 := fun b hb =>
      String.le_antisymm (hfirst b (hmem b hb)) (hcross b hb a (by simp))
    have hsplit : (front ++ back).Pairwise fun a b => a.1 ≤ b.1 := hys.sublist (by simp)
    have hswap := append_flatMap_comm fun b hb =>
      hcomm a (by simp) b (by simp [hmem b hb]) (hkey b hb)
    rw [List.flatMap_cons, ih hrest hsorted hsplit fun x hx y hy => hcomm x (by simp [hx]) y (by simp [hy]),
      List.flatMap_append, List.flatMap_append, List.flatMap_cons, ← List.append_assoc, hswap,
      List.append_assoc]

theorem flatMap_sortByKey_of_perm {xs ys : List (String × List String)} (hperm : xs.Perm ys)
    (hcomm : xs.Pairwise Commuting) :
    (sortByKey xs).flatMap (·.2) = (sortByKey ys).flatMap (·.2) := by
  have hall := hcomm.forall_of_forall fun _ _ _ => rfl
  refine flatMap_eq_of_sorted ?_ (pairwise_sortByKey xs) (pairwise_sortByKey ys) ?_
  · exact (sortByKey_perm xs).trans (hperm.trans (sortByKey_perm ys).symm)
  · intro a ha b hb
    exact hall ((sortByKey_perm xs).mem_iff.mp ha) ((sortByKey_perm xs).mem_iff.mp hb)

/-- Sorted labels do not depend on the order before. -/
theorem mergeSort_eq_of_perm {ls ks : List String} (h : ls.Perm ks) :
    ls.mergeSort = ks.mergeSort := by
  have hperm : ls.mergeSort.Perm ks.mergeSort :=
    (List.mergeSort_perm ls _).trans (h.trans (List.mergeSort_perm ks _).symm)
  exact hperm.eq_of_pairwise (fun a b _ _ => String.le_antisymm)
    List.sortedLE_mergeSort.pairwise List.sortedLE_mergeSort.pairwise

theorem exists_forall₂_trans_iff {α β γ : Type} (R : α → β → Prop) (S : β → γ → Prop)
    (xs : List α) (zs : List γ) :
    (∃ ys, List.Forall₂ R xs ys ∧ List.Forall₂ S ys zs) ↔
      List.Forall₂ (fun x z => ∃ y, R x y ∧ S y z) xs zs := by
  constructor
  · rintro ⟨ys, hR, hS⟩
    induction hR generalizing zs with
    | nil =>
      obtain rfl := List.forall₂_nil_left_iff.mp hS
      exact .nil
    | cons hxy _ ih =>
      obtain ⟨z, rest, hyz, hrest, rfl⟩ := List.forall₂_cons_left_iff.mp hS
      exact .cons ⟨_, hxy, hyz⟩ (ih rest hrest)
  · intro h
    induction h with
    | nil => exact ⟨[], .nil, .nil⟩
    | cons hxz _ ih =>
      obtain ⟨y, hxy, hyz⟩ := hxz
      obtain ⟨ys, hR, hS⟩ := ih
      exact ⟨y :: ys, .cons hxy hR, .cons hyz hS⟩

/-- The lines of a nested circuit as often as they are repeated, under their sort key. Lines
that were not found count as none. -/
def blockOf (x : String × Nat × Except ScriptError (List String)) : String × List String :=
  (x.1, (List.replicate x.2.1 (x.2.2.toOption.getD [])).flatten)

namespace Part

def block? (p : Part) : Option (String × List String) := p.nested?.map blockOf

@[simp] theorem block?_nested (key : String) (n : Nat) (inner : List String) :
    (nested key n (.ok inner)).block? = some (key, (List.replicate n inner).flatten) := rfl

/-- The part with the lines of its nested circuit found. What is repeated zero times is not
looked at and counts as having no lines. -/
def settle? : Part → Option Part
  | nested key n lines =>
    if n = 0 then some (nested key 0 (.ok []))
    else lines.toOption.map fun inner => nested key n (.ok inner)
  | p => some p

theorem settle?_nested_eq_some_iff (key : String) (n : Nat)
    (lines : Except ScriptError (List String)) (p : Part) :
    (nested key n lines).settle? = some p ↔
      (n = 0 ∧ p = nested key 0 (.ok [])) ∨
        (n ≠ 0 ∧ ∃ inner, lines = .ok inner ∧ p = nested key n (.ok inner)) := by
  unfold settle?
  by_cases hn : n = 0
  · simp [hn, eq_comm]
  · cases lines <;> simp [hn, Except.toOption, eq_comm]

/-- A part can be settled if its lines are there where they are to be written. -/
theorem exists_settle?_iff (p : Part) : (∃ q, p.settle? = some q) ↔ p.Playable := by
  cases p with
  | nested key n lines =>
    by_cases hn : n = 0
    · simp [settle?, Playable, hn]
    · cases lines <;> simp [settle?, Playable, hn, Except.toOption]
  | _ => exact ⟨fun _ => trivial, fun _ => ⟨_, rfl⟩⟩

/-- A settled part adds the same lines. -/
theorem views_of_settle? {p q : Part} (h : p.settle? = some q) :
    q.entry? = p.entry? ∧ q.labels = p.labels ∧ q.block? = p.block? := by
  cases p with
  | nested key n lines =>
    rcases (settle?_nested_eq_some_iff key n lines q).mp h with ⟨rfl, rfl⟩ | ⟨-, inner, rfl, rfl⟩
    · exact ⟨rfl, rfl, by simp [block?, nested?, blockOf]⟩
    · exact ⟨rfl, rfl, rfl⟩
  | _ =>
    obtain rfl := Option.some.inj h
    exact ⟨rfl, rfl, rfl⟩

end Part

/-- The lines of the nested circuits of a moment, all of them found. -/
def blockLines (parts : List Part) : List String :=
  (sortByKey (parts.filterMap Part.block?)).flatMap (·.2)

/-- Nested lines are those of the blocks if every nested circuit that is repeated has lines. -/
theorem nestedLines_eq_ok_iff_blockLines (parts : List Part) (lines : List String) :
    nestedLines parts = .ok lines ↔ (∀ p ∈ parts, p.Playable) ∧ lines = blockLines parts := by
  have hblocks : blockLines parts = (sortByKey (parts.filterMap Part.nested?)).flatMap
      fun x => (blockOf x).2 := by
    have hmap : parts.filterMap Part.block? = (parts.filterMap Part.nested?).map blockOf := by
      rw [List.map_filterMap]
      rfl
    rw [blockLines, hmap, sortByKey_map blockOf (fun _ => rfl), List.flatMap_map]
  have hblock : ∀ x group, Repeats x group → group = (blockOf x).2 := by
    rintro ⟨key, n, result⟩ group (⟨hn, rfl⟩ | ⟨-, inner, hinner, rfl⟩)
    · simp [blockOf, show n = 0 from hn]
    · simp [blockOf, show result = .ok inner from hinner, Except.toOption]
  have hlines : ∀ lines, nestedLines parts = .ok lines → lines = blockLines parts := by
    intro lines h
    obtain ⟨groups, hgroups, rfl⟩ := (nestedLines_eq_ok_iff parts lines).mp h
    have hmap := List.forall₂_eq_eq_eq ▸ (List.forall₂_map_left_iff.mpr
      (hgroups.imp fun x group hx => (hblock x group hx).symm))
    rw [hblocks, List.flatMap_def, hmap]
  rw [← nestedLines_isOk_iff]
  constructor
  · intro h
    exact ⟨⟨lines, h⟩, hlines lines h⟩
  · rintro ⟨⟨found, hfound⟩, rfl⟩
    rw [hfound, ← hlines found hfound]

namespace Target

/-- The lines of a moment whose operations have given these parts, all lines being found. -/
def written (t : Target) (parts : List Part) : List String :=
  entryLines parts ++ measureLines parts ++ blockLines parts ++
    if blockLines parts = [] then [t.barrier] else []

/-- What an operation adds to its moment, with the lines of nested circuits found. -/
def settled? (t : Target) (op : Operation) : Option Part :=
  (operationPart t op).toOption.bind Part.settle?

def Lays (t : Target) (ops : List Operation) (lines : List String) : Prop :=
  ∃ parts, List.Forall₂ (fun op p => t.settled? op = some p) ops parts ∧ lines = t.written parts

variable {t : Target}

theorem settled?_eq_some_iff (op : Operation) (p : Part) :
    t.settled? op = some p ↔ ∃ part, operationPart t op = .ok part ∧ part.settle? = some p := by
  unfold settled?
  cases operationPart t op <;> simp [Except.toOption]

/-- An action adds the same whether or not it is settled. -/
theorem settled?_act_eq_some_iff (a : Action) (qs : List Qubit) (p : Part) :
    t.settled? (.act a qs) = some p ↔ t.Gives a qs p := by
  rw [settled?_eq_some_iff, operationPart_act]
  simp only [actionPart_eq_ok_iff]
  constructor
  · rintro ⟨part, hgives, hp⟩
    obtain rfl : part = p := by cases hgives <;> exact Option.some.inj hp
    exact hgives
  · intro hgives
    exact ⟨p, hgives, by cases hgives <;> rfl⟩

/-- A nested circuit adds its lines, if it has some where they are to be written. -/
theorem settled?_subcircuit_eq_some_iff (c : Circuit) (n : UInt32) (qs : List Qubit) (p : Part) :
    t.settled? (.subcircuit c n qs) = some p ↔ ∃ key, t.smallestLabel qs = .ok key ∧
      ((n = 0 ∧ p = .nested key 0 (.ok [])) ∨
        (n ≠ 0 ∧ ∃ inner, momentsLines t c.moments = .ok inner ∧
          p = .nested key n.toNat (.ok inner))) := by
  simp only [settled?_eq_some_iff, operationPart_subcircuit_eq_ok_iff]
  constructor
  · rintro ⟨_, ⟨key, hkey, rfl⟩, hp⟩
    rw [Part.settle?_nested_eq_some_iff, ne_eq, repetitions_eq_zero_iff] at hp
    exact ⟨key, hkey, hp⟩
  · rintro ⟨key, hkey, hp⟩
    refine ⟨_, ⟨key, hkey, rfl⟩, ?_⟩
    rwa [Part.settle?_nested_eq_some_iff, ne_eq, repetitions_eq_zero_iff]

structure SameViews (parts found : List Part) : Prop where
  entries : found.filterMap Part.entry? = parts.filterMap Part.entry?
  labels : found.flatMap Part.labels = parts.flatMap Part.labels
  blocks : found.filterMap Part.block? = parts.filterMap Part.block?

namespace SameViews

variable {parts found : List Part} {p q : Part}

theorem nil : SameViews [] [] := ⟨rfl, rfl, rfl⟩

theorem cons (h : SameViews parts found) (hentry : q.entry? = p.entry?)
    (hlabels : q.labels = p.labels) (hblock : q.block? = p.block?) :
    SameViews (p :: parts) (q :: found) := by
  refine ⟨?_, ?_, ?_⟩
  · rw [List.filterMap_cons, List.filterMap_cons, hentry, h.entries]
  · rw [List.flatMap_cons, List.flatMap_cons, hlabels, h.labels]
  · rw [List.filterMap_cons, List.filterMap_cons, hblock, h.blocks]

/-- A part that is nothing adds nothing. -/
theorem skip (h : SameViews parts found) : SameViews (.nothing :: parts) found :=
  ⟨h.entries, h.labels, h.blocks⟩

theorem written_eq (h : SameViews parts found) : t.written found = t.written parts := by
  have hentry : entryLines found = entryLines parts := by rw [entryLines, entryLines, h.entries]
  have hmeasure : measureLines found = measureLines parts := by
    rw [measureLines, measureLines, h.labels]
  have hblock : blockLines found = blockLines parts := by rw [blockLines, blockLines, h.blocks]
  rw [written, written, hentry, hmeasure, hblock]

end SameViews

/-- Settling changes no line. -/
theorem written_of_settle {parts found : List Part}
    (h : List.Forall₂ (fun p q : Part => p.settle? = some q) parts found) :
    t.written found = t.written parts := by
  have hviews : SameViews parts found := by
    induction h with
    | nil => exact .nil
    | cons hp _ ih =>
      obtain ⟨hentry, hlabels, hblock⟩ := Part.views_of_settle? hp
      exact ih.cons hentry hlabels hblock
  exact hviews.written_eq

/-- Operations that add the same have the same lines. -/
theorem lays_iff_of_settled {ops ops' : List Operation}
    (h : List.Forall₂ (fun x y => t.settled? x = t.settled? y) ops ops') (lines : List String) :
    t.Lays ops lines ↔ t.Lays ops' lines := by
  have hparts : ∀ parts, List.Forall₂ (fun op p => t.settled? op = some p) ops parts ↔
      List.Forall₂ (fun op p => t.settled? op = some p) ops' parts := by
    intro parts
    induction h generalizing parts with
    | nil => rfl
    | cons hxy _ ih => cases parts <;> simp [hxy, ih]
  simp only [Lays, hparts]

section Filter

variable {ops : List Operation} {keep : Operation → Bool}

/-- What is left of some operations adds the same, if the others add nothing. -/
theorem exists_settled_filter
    (hdrop : ∀ op ∈ ops, keep op = false → t.settled? op = some .nothing) {parts : List Part}
    (hparts : List.Forall₂ (fun op p => t.settled? op = some p) ops parts) :
    ∃ kept, List.Forall₂ (fun op p => t.settled? op = some p) (ops.filter keep) kept ∧
      SameViews parts kept := by
  induction hparts with
  | nil => exact ⟨[], .nil, .nil⟩
  | @cons op p ops parts hp _ ih =>
    obtain ⟨hop, hdrop⟩ := List.forall_mem_cons.mp hdrop
    obtain ⟨kept, hkept, hviews⟩ := ih hdrop
    cases hk : keep op with
    | true =>
      rw [List.filter_cons_of_pos hk]
      exact ⟨p :: kept, .cons hp hkept, hviews.cons rfl rfl rfl⟩
    | false =>
      rw [List.filter_cons_of_neg (by simp [hk])]
      obtain rfl : p = .nothing := Option.some.inj (hp.symm.trans (hop hk))
      exact ⟨kept, hkept, hviews.skip⟩

/-- Operations that add nothing may be put among others. -/
theorem exists_settled_of_filter
    (hdrop : ∀ op ∈ ops, keep op = false → t.settled? op = some .nothing) {kept : List Part}
    (hkept : List.Forall₂ (fun op p => t.settled? op = some p) (ops.filter keep) kept) :
    ∃ parts, List.Forall₂ (fun op p => t.settled? op = some p) ops parts ∧
      SameViews parts kept := by
  induction ops generalizing kept with
  | nil =>
    obtain rfl := List.forall₂_nil_left_iff.mp hkept
    exact ⟨[], .nil, .nil⟩
  | cons op ops ih =>
    obtain ⟨hop, hdrop⟩ := List.forall_mem_cons.mp hdrop
    cases hk : keep op with
    | true =>
      rw [List.filter_cons_of_pos hk] at hkept
      obtain ⟨p, rest, hp, hrest, rfl⟩ := List.forall₂_cons_left_iff.mp hkept
      obtain ⟨parts, hparts, hviews⟩ := ih hdrop hrest
      exact ⟨p :: parts, .cons hp hparts, hviews.cons rfl rfl rfl⟩
    | false =>
      rw [List.filter_cons_of_neg (by simp [hk])] at hkept
      obtain ⟨parts, hparts, hviews⟩ := ih hdrop hkept
      exact ⟨.nothing :: parts, .cons (hop hk) hparts, hviews.skip⟩

/-- Operations that add nothing may be left out. -/
theorem lays_filter_iff (hdrop : ∀ op ∈ ops, keep op = false → t.settled? op = some .nothing)
    (lines : List String) : t.Lays (ops.filter keep) lines ↔ t.Lays ops lines := by
  constructor
  · rintro ⟨kept, hkept, rfl⟩
    obtain ⟨parts, hparts, hviews⟩ := exists_settled_of_filter hdrop hkept
    exact ⟨parts, hparts, hviews.written_eq⟩
  · rintro ⟨parts, hparts, rfl⟩
    obtain ⟨kept, hkept, hviews⟩ := exists_settled_filter hdrop hparts
    exact ⟨kept, hkept, hviews.written_eq.symm⟩

end Filter

end Target

variable {t : Target}

theorem partsLines_eq_ok_iff_written (parts : List Part) (lines : List String) :
    t.partsLines parts = .ok lines ↔ (∀ p ∈ parts, p.Playable) ∧ lines = t.written parts := by
  simp only [partsLines_eq_ok_iff, nestedLines_eq_ok_iff_blockLines]
  constructor
  · rintro ⟨_, ⟨hplay, rfl⟩, rfl⟩
    exact ⟨hplay, rfl⟩
  · rintro ⟨hplay, rfl⟩
    exact ⟨_, ⟨hplay, rfl⟩, rfl⟩

/-- The lines of a moment are those that its operations lay. -/
theorem momentsLines_cons_eq_ok_iff_lays (m : Moment) (ms : List Moment) (lines : List String) :
    momentsLines t (m :: ms) = .ok lines ↔
      ∃ front, t.Lays m.operations front ∧
        ∃ rest, momentsLines t ms = .ok rest ∧ lines = front ++ rest := by
  have hsettled : ∀ found, List.Forall₂ (fun op p => t.settled? op = some p) m.operations found ↔
      ∃ parts, List.Forall₂ (fun op part => operationPart t op = .ok part) m.operations parts ∧
        List.Forall₂ (fun p q : Part => p.settle? = some q) parts found := by
    intro found
    simp only [Target.settled?_eq_some_iff]
    exact (exists_forall₂_trans_iff _ _ _ _).symm
  simp only [momentsLines_cons_eq_ok_iff, partsLines_eq_ok_iff_written, Target.Lays, hsettled]
  constructor
  · rintro ⟨parts, hparts, _, ⟨hplay, rfl⟩, rest, hrest, rfl⟩
    obtain ⟨found, hfound⟩ := (exists_forall₂_iff (fun p q : Part => p.settle? = some q) parts).mpr
      fun p hp => p.exists_settle?_iff.mpr (hplay p hp)
    exact ⟨_, ⟨found, ⟨parts, hparts, hfound⟩, (Target.written_of_settle hfound).symm⟩, rest, hrest,
      rfl⟩
  · rintro ⟨_, ⟨found, ⟨parts, hparts, hfound⟩, rfl⟩, rest, hrest, rfl⟩
    have hplay : ∀ p ∈ parts, p.Playable := by
      intro p hp
      obtain ⟨q, -, hq⟩ := forall₂_right_of_mem hfound hp
      exact p.exists_settle?_iff.mp ⟨q, hq⟩
    exact ⟨parts, hparts, _, ⟨hplay, rfl⟩, rest, hrest, by rw [Target.written_of_settle hfound]⟩

end PulseScript
