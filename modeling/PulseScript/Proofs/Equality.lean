import Mathlib
import PulseScript.Proofs.Construction
import PulseScript.Proofs.Values

/-!
# Equality of operations, moments and circuits

Moments are compared up to the order of their operations, by taking for each operation the
first equal one that is left on the other side. This finds a matching whenever there is one:
equality of operations is symmetric and transitive, so operations that share a partner have
all partners in common, and whichever is taken first can be exchanged for the right one.
An operation may hold a circuit, so the laws of both are proved together.
-/
namespace PulseScript

section Removing

variable {α : Type} {p : α → Bool} {xs : List α}

/-- What is removed satisfies `p`, and the rest is the other elements. -/
theorem exists_of_removeFirst? {rest : List α} (h : removeFirst? p xs = some rest) :
    ∃ x, p x = true ∧ (x :: rest).Perm xs := by
  induction xs generalizing rest with
  | nil => exact absurd h (by simp [removeFirst?])
  | cons y ys ih =>
    rw [removeFirst?] at h
    split at h
    · rename_i hy
      obtain rfl := Option.some.inj h
      exact ⟨y, hy, .refl _⟩
    · obtain ⟨front, hfront, rfl⟩ := Option.map_eq_some_iff.mp h
      obtain ⟨x, hx, hperm⟩ := ih hfront
      exact ⟨x, hx, (List.Perm.swap y x front).trans (hperm.cons y)⟩

theorem exists_removeFirst? {x : α} (hx : x ∈ xs) (hp : p x = true) :
    ∃ rest, removeFirst? p xs = some rest := by
  induction xs with
  | nil => exact absurd hx (by simp)
  | cons y ys ih =>
    by_cases hy : p y = true
    · exact ⟨ys, by simp [removeFirst?, hy]⟩
    · have hmem : x ∈ ys := (List.mem_cons.mp hx).resolve_left fun he => hy (he ▸ hp)
      obtain ⟨rest, hrest⟩ := ih hmem
      exact ⟨y :: rest, by simp [removeFirst?, hy, hrest]⟩

theorem removeFirst?_map {β : Type} (g : β → α) (zs : List β) :
    removeFirst? p (zs.map g) = (removeFirst? (fun z => p (g z)) zs).map (List.map g) := by
  induction zs with
  | nil => rfl
  | cons z zs ih =>
    rw [List.map_cons, removeFirst?, removeFirst?, ih]
    split <;> simp [Function.comp_def]

end Removing

section PairsOff

variable {α β : Type} {fits : α → β → Bool} {xs : List α} {ys : List β}

theorem rel_of_pairsOff (h : pairsOff fits xs ys = true) :
    Multiset.Rel (fun x y => fits x y = true) (xs : Multiset α) ys := by
  induction xs generalizing ys with
  | nil =>
    obtain rfl : ys = [] := List.isEmpty_iff.mp h
    exact .zero
  | cons x xs ih =>
    rw [pairsOff] at h
    split at h
    · rename_i rest hrest
      obtain ⟨y, hxy, hperm⟩ := exists_of_removeFirst? hrest
      rw [← Multiset.coe_eq_coe.mpr hperm, ← Multiset.cons_coe, ← Multiset.cons_coe]
      exact .cons hxy (ih h)
    · exact absurd h (by simp)

/-- A matching is found if elements that share a partner have all partners in common. -/
theorem pairsOff_of_rel (h : Multiset.Rel (fun x y => fits x y = true) (xs : Multiset α) ys)
    (hshare : ∀ x ∈ xs, ∀ x' ∈ xs, ∀ y ∈ ys, ∀ y' ∈ ys, fits x y = true → fits x y' = true →
      fits x' y' = true → fits x' y = true) : pairsOff fits xs ys = true := by
  induction xs generalizing ys with
  | nil =>
    obtain rfl : ys = [] := by simpa using h
    rfl
  | cons x xs ih =>
    rw [← Multiset.cons_coe] at h
    obtain ⟨y, others, hxy, hothers, hys⟩ := Multiset.rel_cons_left.mp h
    have hy : y ∈ ys := Multiset.mem_coe.mp (hys ▸ Multiset.mem_cons_self y others)
    obtain ⟨rest, hrest⟩ := exists_removeFirst? (p := fits x) hy hxy
    obtain ⟨y', hxy', hperm⟩ := exists_of_removeFirst? hrest
    have hsub : ∀ z ∈ rest, z ∈ ys := fun z hz => hperm.mem_iff.mp (List.mem_cons_of_mem y' hz)
    have hy' : y' ∈ ys := hperm.mem_iff.mp List.mem_cons_self
    rw [pairsOff, hrest]
    refine ih ?_ fun z hz z' hz' w hw w' hw' => hshare z (List.mem_cons_of_mem x hz) z'
      (List.mem_cons_of_mem x hz') w (hsub w hw) w' (hsub w' hw')
    -- the partner of `x` may be another one than was taken; whatever had that one gets it
    rw [← Multiset.coe_eq_coe.mpr hperm, ← Multiset.cons_coe] at hys
    rcases Multiset.cons_eq_cons.mp hys with ⟨-, rfl⟩ | ⟨-, common, hcommon, rfl⟩
    · exact hothers
    · obtain ⟨x', front, hx'y', hfront, hxs⟩ := Multiset.rel_cons_right.mp hothers
      have hx' : x' ∈ xs := Multiset.mem_coe.mp (hxs ▸ Multiset.mem_cons_self x' front)
      rw [hxs, hcommon]
      exact .cons (hshare x List.mem_cons_self x' (List.mem_cons_of_mem x hx') y hy y' hy' hxy
        hxy' hx'y') hfront

theorem pairsOff_map {α' β' : Type} (f : α' → α) (g : β' → β) (us : List α') (vs : List β') :
    pairsOff fits (us.map f) (vs.map g) = pairsOff (fun u v => fits (f u) (g v)) us vs := by
  induction us generalizing vs with
  | nil => cases vs <;> rfl
  | cons u us ih =>
    rw [List.map_cons, pairsOff, pairsOff, removeFirst?_map]
    cases removeFirst? (fun v => fits (f u) (g v)) vs with
    | none => rfl
    | some rest => exact ih rest

end PairsOff

theorem operationsBeq_eq (xs ys : List Operation) :
    operationsBeq xs ys = pairsOff (fun x y => y == x) xs ys := by
  rw [operationsBeq]
  conv_rhs => rw [← List.attach_map_subtype_val xs, ← List.attach_map_subtype_val ys]
  rw [pairsOff_map]
  rfl

abbrev Matches : Multiset Operation → Multiset Operation → Prop :=
  Multiset.Rel fun x y => (x == y) = true

/-- The operations of the other side are compared with those of this side, so they come first. -/
theorem matches_of_operationsBeq {xs ys : List Operation} (h : operationsBeq xs ys = true) :
    Matches ys xs := by
  rw [operationsBeq_eq] at h
  exact Multiset.rel_flip.mp (rel_of_pairsOff h)

/-- Equality with this operation on the left obeys the laws of equality. To compare moments is to
compare the operations of the other with those of the one, so that transitivity one level up takes
`share` one level down, and the other way around. -/
structure Operation.Lawful (x : Operation) : Prop where
  comm : ∀ y, (x == y) = (y == x)
  trans : ∀ {y z}, (x == y) = true → (y == z) = true → (x == z) = true
  share : ∀ {y z}, (x == y) = true → (z == y) = true → (x == z) = true

/-- Matchings with a common side make a matching. -/
theorem rel_comp {α β γ : Type} {r : α → β → Prop} {q : β → γ → Prop} {p : α → γ → Prop}
    {s : Multiset α} {t : Multiset β} {u : Multiset γ} (h : Multiset.Rel r s t)
    (h' : Multiset.Rel q t u) (hp : ∀ x ∈ s, ∀ y z, r x y → q y z → p x z) :
    Multiset.Rel p s u := by
  induction h generalizing u with
  | zero =>
    obtain rfl := Multiset.rel_zero_left.mp h'
    exact .zero
  | cons hxy _ ih =>
    obtain ⟨z, rest, hyz, hrest, rfl⟩ := Multiset.rel_cons_left.mp h'
    refine .cons (hp _ (Multiset.mem_cons_self _ _) _ _ hxy hyz) (ih hrest fun x hx => ?_)
    exact hp x (Multiset.mem_cons_of_mem hx)

theorem forall₂_comp {α β γ : Type} {r : α → β → Prop} {q : β → γ → Prop} {p : α → γ → Prop}
    {xs : List α} {ys : List β} {zs : List γ} (h : List.Forall₂ r xs ys)
    (h' : List.Forall₂ q ys zs) (hp : ∀ x ∈ xs, ∀ y z, r x y → q y z → p x z) :
    List.Forall₂ p xs zs := by
  induction h generalizing zs with
  | nil =>
    obtain rfl := List.forall₂_nil_left_iff.mp h'
    exact .nil
  | cons hxy _ ih =>
    obtain ⟨z, rest, hyz, hrest, rfl⟩ := List.forall₂_cons_left_iff.mp h'
    refine .cons (hp _ List.mem_cons_self _ _ hxy hyz) (ih hrest fun x hx => ?_)
    exact hp x (List.mem_cons_of_mem _ hx)

section Lawful

variable {xs ys zs : List Operation}

/-- Operations that obey the laws are matched with any others if they can be. -/
theorem operationsBeq_iff_of_lawful (h : ∀ x ∈ xs, x.Lawful) :
    operationsBeq xs ys = true ↔ Matches xs ys := by
  constructor
  · intro hbeq
    refine Multiset.rel_flip.mp ((matches_of_operationsBeq hbeq).mono fun y _ x hx hyx => ?_)
    exact ((h x hx).comm y).trans hyx
  · intro hmatch
    rw [operationsBeq_eq]
    refine pairsOff_of_rel (hmatch.mono fun x hx y _ hxy => ((h x hx).comm y).symm.trans hxy) ?_
    intro x hx x' hx' y _ y' _ hyx hy'x hy'x'
    have hxy : (x == y) = true := ((h x hx).comm y).trans hyx
    have hx'y' : (x' == y') = true := ((h x' hx').comm y').trans hy'x'
    exact ((h x' hx').comm y).symm.trans ((h x' hx').trans ((h x' hx').trans hx'y' hy'x) hxy)

theorem operationsBeq_comm_of_lawful (h : ∀ x ∈ xs, x.Lawful) :
    operationsBeq xs ys = operationsBeq ys xs := by
  rw [Bool.eq_iff_iff, operationsBeq_iff_of_lawful h]
  constructor
  · intro hmatch
    rw [operationsBeq_eq]
    refine pairsOff_of_rel (Multiset.rel_flip.mpr hmatch) ?_
    intro y _ y' _ x hx x' hx' hxy hx'y hx'y'
    have hyx' : (y == x') = true := ((h x' hx').comm y).symm.trans hx'y
    exact (h x hx).trans ((h x hx).trans hxy hyx') hx'y'
  · exact matches_of_operationsBeq

theorem operationsBeq_trans_of_lawful (h : ∀ x ∈ xs, x.Lawful) (hxy : operationsBeq xs ys = true)
    (hyz : operationsBeq ys zs = true) : operationsBeq xs zs = true := by
  rw [operationsBeq_iff_of_lawful h] at hxy ⊢
  exact rel_comp hxy (Multiset.rel_flip.mpr (matches_of_operationsBeq hyz))
    fun x hx _ _ hxy hzy => (h x hx).share hxy hzy

theorem operationsBeq_share_of_lawful (h : ∀ x ∈ xs, x.Lawful) (hxy : operationsBeq xs ys = true)
    (hzy : operationsBeq zs ys = true) : operationsBeq xs zs = true := by
  rw [operationsBeq_iff_of_lawful h] at hxy ⊢
  exact rel_comp hxy (matches_of_operationsBeq hzy) fun x hx _ _ hxy hyz => (h x hx).trans hxy hyz

variable {ms ns ks : List Moment}

@[simp] theorem momentsBeq_nil : momentsBeq [] ns = ns.isEmpty := by
  cases ns <;> simp [momentsBeq]

@[simp] theorem momentsBeq_cons_nil (m : Moment) : momentsBeq (m :: ms) [] = false := by
  simp [momentsBeq]

@[simp] theorem momentsBeq_cons (m n : Moment) :
    momentsBeq (m :: ms) (n :: ns) =
      (operationsBeq m.operations n.operations && momentsBeq ms ns) := by
  obtain ⟨xs⟩ := m
  obtain ⟨ys⟩ := n
  rw [momentsBeq]

theorem momentsBeq_iff : momentsBeq ms ns = true ↔
    List.Forall₂ (fun m n => operationsBeq m.operations n.operations = true) ms ns := by
  induction ms generalizing ns with
  | nil => cases ns <;> simp
  | cons m ms ih => cases ns <;> simp [ih]

theorem momentsBeq_comm_of_lawful (h : ∀ m ∈ ms, ∀ x ∈ m.operations, x.Lawful) :
    momentsBeq ms ns = momentsBeq ns ms := by
  induction ms generalizing ns with
  | nil => cases ns <;> simp
  | cons m ms ih =>
    cases ns with
    | nil => simp
    | cons n ns =>
      obtain ⟨hm, hms⟩ := List.forall_mem_cons.mp h
      rw [momentsBeq_cons, momentsBeq_cons, operationsBeq_comm_of_lawful hm, ih hms]

theorem momentsBeq_trans_of_lawful (h : ∀ m ∈ ms, ∀ x ∈ m.operations, x.Lawful)
    (hmn : momentsBeq ms ns = true) (hnk : momentsBeq ns ks = true) : momentsBeq ms ks = true := by
  rw [momentsBeq_iff] at hmn hnk ⊢
  exact forall₂_comp hmn hnk fun m hm _ _ => operationsBeq_trans_of_lawful (h m hm)

theorem momentsBeq_share_of_lawful (h : ∀ m ∈ ms, ∀ x ∈ m.operations, x.Lawful)
    (hmn : momentsBeq ms ns = true) (hkn : momentsBeq ks ns = true) : momentsBeq ms ks = true := by
  rw [momentsBeq_iff] at hmn hkn ⊢
  exact forall₂_comp hmn hkn.flip fun m hm _ _ => operationsBeq_share_of_lawful (h m hm)

end Lawful

/-- Whether the order of the operands has a meaning can be read off the name of a gate. -/
theorem StandardGate.isSymmetric_eq (g : StandardGate) :
    g.isSymmetric = (g.name == "cz" || g.name == "swap") := by
  cases g <;> rfl

theorem Action.isSymmetric_of_beq {a b : Action} (h : (a == b) = true) :
    a.isSymmetric = b.isSymmetric := by
  change Action.beq a b = true at h
  cases a <;> cases b <;> simp only [Action.beq, Bool.false_eq_true] at h <;> try rfl
  rename_i g g'
  change Gate.beq g g' = true at h
  cases g <;> cases g' <;> simp only [Gate.beq, Bool.false_eq_true] at h
  · rw [StandardGate.beq_eq] at h
    have hname := eq_of_beq (Bool.and_eq_true _ _ ▸ h).1
    simp only [isSymmetric, Gate.isSymmetric, StandardGate.isSymmetric_eq, hname]
  · rfl

namespace Operation

theorem sameOperands_iff (symmetric : Bool) (qs rs : List Qubit) :
    sameOperands symmetric qs rs = true ↔ if symmetric then qs.Perm rs else qs = rs := by
  cases symmetric <;> simp [sameOperands, List.isPerm_iff]

theorem act_beq_act_iff (a b : Action) (qs rs : List Qubit) :
    (act a qs == act b rs) = true ↔
      (a == b) = true ∧ if a.isSymmetric then qs.Perm rs else qs = rs := by
  rw [← sameOperands_iff, ← Bool.and_eq_true]
  change Operation.beq _ _ = true ↔ _
  rw [Operation.beq]

theorem subcircuit_beq_subcircuit_iff (c d : Circuit) (m n : UInt32) (qs rs : List Qubit) :
    (subcircuit c m qs == subcircuit d n rs) = true ↔ (c == d) = true ∧ m = n ∧ qs = rs := by
  obtain ⟨ms⟩ := c
  obtain ⟨ns⟩ := d
  change Operation.beq _ _ = true ↔ momentsBeq ms ns = true ∧ _
  simp [Operation.beq, and_assoc]

@[simp] theorem act_beq_subcircuit (a : Action) (c : Circuit) (n : UInt32) (qs rs : List Qubit) :
    (act a qs == subcircuit c n rs) = false := by
  change Operation.beq _ _ = false
  simp [Operation.beq]

@[simp] theorem subcircuit_beq_act (a : Action) (c : Circuit) (n : UInt32) (qs rs : List Qubit) :
    (subcircuit c n qs == act a rs) = false := by
  change Operation.beq _ _ = false
  simp [Operation.beq]

theorem act_beq_symm {a b : Action} {qs rs : List Qubit} (h : (act a qs == act b rs) = true) :
    (act b rs == act a qs) = true := by
  obtain ⟨hab, hqs⟩ := (act_beq_act_iff a b qs rs).mp h
  refine (act_beq_act_iff b a rs qs).mpr ⟨BEq.symm hab, ?_⟩
  rw [← Action.isSymmetric_of_beq hab]
  split_ifs at hqs ⊢
  · exact hqs.symm
  · exact hqs.symm

theorem act_beq_trans {a b c : Action} {qs rs ss : List Qubit}
    (h : (act a qs == act b rs) = true) (h' : (act b rs == act c ss) = true) :
    (act a qs == act c ss) = true := by
  obtain ⟨hab, hqs⟩ := (act_beq_act_iff a b qs rs).mp h
  obtain ⟨hbc, hrs⟩ := (act_beq_act_iff b c rs ss).mp h'
  refine (act_beq_act_iff a c qs ss).mpr ⟨BEq.trans hab hbc, ?_⟩
  rw [← Action.isSymmetric_of_beq hab] at hrs
  split_ifs at hqs hrs ⊢
  · exact hqs.trans hrs
  · exact hqs.trans hrs

theorem lawful (x : Operation) : x.Lawful := by
  induction x with
  | act a qs =>
    constructor
    · intro y
      cases y with
      | act b rs => exact Bool.eq_iff_iff.mpr ⟨act_beq_symm, act_beq_symm⟩
      | subcircuit d m rs => rw [act_beq_subcircuit, subcircuit_beq_act]
    · intro y z hxy hyz
      cases y with
      | act b rs =>
        cases z with
        | act c ss => exact act_beq_trans hxy hyz
        | subcircuit d m ss => exact absurd hyz (by simp)
      | subcircuit d m rs => exact absurd hxy (by simp)
    · intro y z hxy hzy
      cases y with
      | act b rs =>
        cases z with
        | act c ss => exact act_beq_trans hxy (act_beq_symm hzy)
        | subcircuit d m ss => exact absurd hzy (by simp)
      | subcircuit d m rs => exact absurd hxy (by simp)
  | subcircuit c n qs ih =>
    constructor
    · intro y
      cases y with
      | act b rs => rw [act_beq_subcircuit, subcircuit_beq_act]
      | subcircuit d m rs =>
        have hcd : (c == d) = (d == c) := momentsBeq_comm_of_lawful ih
        rw [Bool.eq_iff_iff, subcircuit_beq_subcircuit_iff, subcircuit_beq_subcircuit_iff, hcd,
          @eq_comm _ n, @eq_comm _ qs]
    · intro y z hxy hyz
      cases y with
      | act b rs => exact absurd hxy (by simp)
      | subcircuit d m rs =>
        cases z with
        | act b rs => exact absurd hyz (by simp)
        | subcircuit e k ss =>
          rw [subcircuit_beq_subcircuit_iff] at hxy hyz ⊢
          exact ⟨momentsBeq_trans_of_lawful ih hxy.1 hyz.1, hxy.2.1.trans hyz.2.1,
            hxy.2.2.trans hyz.2.2⟩
    · intro y z hxy hzy
      cases y with
      | act b rs => exact absurd hxy (by simp)
      | subcircuit d m rs =>
        cases z with
        | act b rs => exact absurd hzy (by simp)
        | subcircuit e k ss =>
          rw [subcircuit_beq_subcircuit_iff] at hxy hzy ⊢
          exact ⟨momentsBeq_share_of_lawful ih hxy.1 hzy.1, hxy.2.1.trans hzy.2.1.symm,
            hxy.2.2.trans hzy.2.2.symm⟩

instance : PartialEquivBEq Operation where
  symm {x y} h := (x.lawful.comm y).symm.trans h
  trans {x _ _} := x.lawful.trans

end Operation

/-- Lists of operations are equal if there is a matching. -/
theorem operationsBeq_iff (xs ys : List Operation) : operationsBeq xs ys = true ↔ Matches xs ys :=
  operationsBeq_iff_of_lawful fun x _ => x.lawful

namespace Moment

theorem beq_iff (m n : Moment) :
    (m == n) = true ↔ Matches (m.operations : Multiset Operation) n.operations :=
  operationsBeq_iff m.operations n.operations

instance : PartialEquivBEq Moment where
  symm h := (operationsBeq_comm_of_lawful fun x _ => x.lawful).symm.trans h
  trans := operationsBeq_trans_of_lawful fun x _ => x.lawful

end Moment

namespace Circuit

/-- Circuits are equal if their moments are, one by one. -/
theorem beq_iff (c d : Circuit) :
    (c == d) = true ↔ List.Forall₂ (fun m n : Moment => (m == n) = true) c.moments d.moments :=
  momentsBeq_iff

instance : PartialEquivBEq Circuit where
  symm h := (momentsBeq_comm_of_lawful fun _ _ x _ => x.lawful).symm.trans h
  trans := momentsBeq_trans_of_lawful fun _ _ x _ => x.lawful

end Circuit

mutual
/-- The numbers that occur in an operation, at every depth. -/
def Operation.numbers : Operation → List Binary64
  | .act a _ => a.numbers
  | .subcircuit ⟨ms⟩ _ _ => momentsNumbers ms

def operationsNumbers : List Operation → List Binary64
  | [] => []
  | op :: ops => op.numbers ++ operationsNumbers ops

def momentsNumbers : List Moment → List Binary64
  | [] => []
  | ⟨ops⟩ :: ms => operationsNumbers ops ++ momentsNumbers ms
end

def Moment.numbers (m : Moment) : List Binary64 := m.operations.flatMap Operation.numbers

def Circuit.numbers (c : Circuit) : List Binary64 := c.moments.flatMap Moment.numbers

theorem operationsNumbers_eq (ops : List Operation) :
    operationsNumbers ops = ops.flatMap Operation.numbers := by
  induction ops with
  | nil => rfl
  | cons op ops ih => rw [operationsNumbers, ih, List.flatMap_cons]

theorem momentsNumbers_eq (ms : List Moment) : momentsNumbers ms = ms.flatMap Moment.numbers := by
  induction ms with
  | nil => rfl
  | cons m ms ih =>
    obtain ⟨ops⟩ := m
    rw [momentsNumbers, ih, operationsNumbers_eq, List.flatMap_cons, Moment.numbers]

@[simp] theorem Operation.numbers_subcircuit (c : Circuit) (n : UInt32) (qs : List Qubit) :
    (Operation.subcircuit c n qs).numbers = c.numbers := by
  obtain ⟨ms⟩ := c
  rw [numbers, momentsNumbers_eq, Circuit.numbers]

theorem Moment.nan_notMem_numbers {m : Moment} :
    .nan ∉ m.numbers ↔ ∀ op ∈ m.operations, .nan ∉ op.numbers := by
  simp [numbers]

theorem Circuit.nan_notMem_numbers {c : Circuit} :
    .nan ∉ c.numbers ↔ ∀ m ∈ c.moments, .nan ∉ m.numbers := by
  simp [numbers]

/-- A moment equals itself exactly if its operations do. -/
theorem Moment.beq_self_iff_forall (m : Moment) :
    (m == m) = true ↔ ∀ op ∈ m.operations, (op == op) = true := by
  rw [beq_iff]
  constructor
  · intro h op hop
    obtain ⟨y, -, hy⟩ := Multiset.exists_mem_of_rel_of_mem h (Multiset.mem_coe.mpr hop)
    exact BEq.trans hy (BEq.symm hy)
  · exact fun h => Multiset.rel_refl_of_refl_on fun op hop => h op (Multiset.mem_coe.mp hop)

theorem Circuit.beq_self_iff_forall (c : Circuit) :
    (c == c) = true ↔ ∀ m ∈ c.moments, (m == m) = true := by
  rw [beq_iff, List.forall₂_same]

/-- An operation equals itself exactly if no NaN occurs in it. -/
@[simp] theorem Operation.beq_self_iff (x : Operation) : (x == x) = true ↔ .nan ∉ x.numbers := by
  induction x with
  | act a qs => simp [act_beq_act_iff, numbers]
  | subcircuit c n qs ih =>
    rw [subcircuit_beq_subcircuit_iff, numbers_subcircuit, Circuit.nan_notMem_numbers,
      Circuit.beq_self_iff_forall]
    simp only [and_self, and_true, Moment.beq_self_iff_forall, Moment.nan_notMem_numbers]
    exact forall₂_congr fun m hm => forall₂_congr fun op hop => ih m hm op hop

@[simp] theorem Moment.beq_self_iff (m : Moment) : (m == m) = true ↔ .nan ∉ m.numbers := by
  simp only [beq_self_iff_forall, Operation.beq_self_iff, nan_notMem_numbers]

@[simp] theorem Circuit.beq_self_iff (c : Circuit) : (c == c) = true ↔ .nan ∉ c.numbers := by
  simp only [beq_self_iff_forall, Moment.beq_self_iff, nan_notMem_numbers]

/-- The durations of a valid sequence are finite. -/
theorem Decoupling.isFinite_of_valid {d : Decoupling} (h : d.validate = .ok ()) :
    d.total.isFinite = true ∧ d.pulse.isFinite = true := by
  unfold validate at h
  simp only at h
  split at h
  · exact absurd h (by simp)
  · split at h
    · exact absurd h (by simp)
    · split at h
      · exact absurd h (by simp)
      · rename_i hfinite
        have hboth : (d.total.isFinite = true ∧ d.pulse.isFinite = true) ∧
            d.pulse.le (.zero false) = false := by simpa using hfinite
        exact hboth.1

theorem Decoupling.beq_self {d : Decoupling} (h : d.validate = .ok ()) : (d == d) = true := by
  obtain ⟨ht, hp⟩ := isFinite_of_valid h
  have hne : ∀ x : Binary64, x.isFinite = true → .nan ≠ x := by
    rintro _ hx rfl
    exact absurd hx (by simp [Binary64.isFinite])
  simp [numbers, hne _ ht, hne _ hp]

theorem matches_of_forall₂ {xs ys : List Operation}
    (h : List.Forall₂ (fun x y => (x == y) = true) xs ys) : Matches xs ys := by
  induction h with
  | nil => exact .zero
  | cons hxy _ ih =>
    rw [← Multiset.cons_coe, ← Multiset.cons_coe]
    exact .cons hxy ih

/-- Operations are equal to any reordering of operations that they are equal to one by one. -/
theorem operationsBeq_of_perm {xs zs ys : List Operation}
    (h : List.Forall₂ (fun x z => (x == z) = true) xs zs) (hperm : zs.Perm ys) :
    operationsBeq xs ys = true := by
  rw [operationsBeq_iff, ← Multiset.coe_eq_coe.mpr hperm]
  exact matches_of_forall₂ h

/-- The same operation, but for the order of the operands of a gate that has none. -/
inductive Operation.Exchanged : Operation → Operation → Prop where
  | same (op : Operation) : Exchanged op op
  | operands {g : StandardGate} {qs rs : List Qubit} (gate : g = .cz ∨ g = .swap)
    (order : qs.Perm rs) :
    Exchanged (.act (.gate (.standard g)) qs) (.act (.gate (.standard g)) rs)

theorem Operation.Exchanged.beq {x y : Operation} (h : x.Exchanged y) (hx : .nan ∉ x.numbers) :
    (x == y) = true := by
  cases h with
  | same => exact (beq_self_iff x).mpr hx
  | @operands g qs rs gate order =>
    refine (act_beq_act_iff _ _ _ _).mpr ⟨(Action.beq_self_iff _).mpr hx, ?_⟩
    rw [if_pos (by rcases gate with rfl | rfl <;> rfl)]
    exact order

theorem Moment.beq_of_exchanged {m n : Moment} {ops : List Operation} (hm : .nan ∉ m.numbers)
    (horder : m.operations.Perm ops)
    (heach : List.Forall₂ Operation.Exchanged ops n.operations) : (m == n) = true := by
  have hback : List.Forall₂ (fun y x => (y == x) = true) n.operations ops := by
    refine List.forall₂_iff_get.mpr ⟨heach.length_eq.symm, fun i hy hx => ?_⟩
    have hmem : ops.get ⟨i, hx⟩ ∈ m.operations := horder.mem_iff.mpr (List.get_mem _ _)
    exact BEq.symm ((heach.get hx hy).beq (nan_notMem_numbers.mp hm _ hmem))
  exact BEq.symm (show (n == m) = true from operationsBeq_of_perm hback horder.symm)

section Positions

variable {α β : Type}

theorem exists_pairs_of_rel {r : α → β → Prop} {s : Multiset α} {t : Multiset β}
    (h : Multiset.Rel r s t) :
    ∃ pairs : List (α × β), (pairs.map Prod.fst : Multiset α) = s ∧
      (pairs.map Prod.snd : Multiset β) = t ∧ ∀ p ∈ pairs, r p.1 p.2 := by
  induction h with
  | zero => exact ⟨[], rfl, rfl, by simp⟩
  | @cons x y s t hxy _ ih =>
    obtain ⟨pairs, rfl, rfl, hpairs⟩ := ih
    exact ⟨(x, y) :: pairs, by simp, by simp, List.forall_mem_cons.mpr ⟨hxy, hpairs⟩⟩

/-- A list that names every position once numbers the positions. -/
theorem exists_numbering {n : ℕ} {l : List α} {f : α → Fin n}
    (h : (l.map f : Multiset (Fin n)) = Finset.univ.val) :
    ∃ e : Fin l.length ≃ Fin n, ∀ k, e k = f l[k] := by
  have hnodup : (l.map f).Nodup := Multiset.coe_nodup.mp (h ▸ Finset.univ.nodup)
  have hall : ∀ i, i ∈ l.map f := fun i => Multiset.mem_coe.mp (h ▸ Finset.mem_univ_val i)
  refine ⟨(finCongr (by simp)).trans (hnodup.getEquivOfForallMemList _ hall), fun k => ?_⟩
  simp [List.Nodup.getEquivOfForallMemList]

/-- Lists can be matched exactly if their positions can. -/
theorem rel_coe_iff_exists_equiv {r : α → β → Prop} (xs : List α) (ys : List β) :
    Multiset.Rel r (xs : Multiset α) ys ↔
      ∃ σ : Fin xs.length ≃ Fin ys.length, ∀ i, r xs[i] ys[σ i] := by
  have hxs : (xs : Multiset α) = (Finset.univ : Finset (Fin xs.length)).val.map xs.get := by
    rw [Fin.univ_val_map, List.ofFn_get]
  have hys : (ys : Multiset β) = (Finset.univ : Finset (Fin ys.length)).val.map ys.get := by
    rw [Fin.univ_val_map, List.ofFn_get]
  constructor
  · intro h
    rw [hxs, hys, Multiset.rel_map] at h
    obtain ⟨pairs, hfst, hsnd, hpairs⟩ := exists_pairs_of_rel h
    obtain ⟨first, hfirst⟩ := exists_numbering hfst
    obtain ⟨second, hsecond⟩ := exists_numbering hsnd
    refine ⟨first.symm.trans second, fun i => ?_⟩
    obtain ⟨k, rfl⟩ := first.surjective i
    have hpair := hpairs pairs[k] (List.getElem_mem _)
    rw [← hfirst, ← hsecond] at hpair
    simpa using hpair
  · rintro ⟨σ, hσ⟩
    rw [hxs, hys, ← Multiset.map_univ_val_equiv σ, Multiset.map_map, Multiset.rel_map]
    exact Multiset.rel_refl_of_refl_on fun i _ => hσ i

end Positions

/-- Moments are equal exactly if their positions can be matched so that the operations on
them are equal. Equality is symmetric and transitive, a value equals itself exactly if no NaN
occurs in it, and without NaN neither the order of a moment nor that of the operands of a
symmetric gate matters. -/
theorem Moment.beq_iff_exists_equiv :
    (∀ m n : Moment, (m == n) = true ↔
      ∃ σ : Fin m.operations.length ≃ Fin n.operations.length,
        ∀ i, (m.operations[i] == n.operations[σ i]) = true) ∧
    (PartialEquivBEq Operation ∧ PartialEquivBEq Moment ∧ PartialEquivBEq Circuit) ∧
    ((∀ x : Operation, (x == x) = true ↔ .nan ∉ x.numbers) ∧
      (∀ m : Moment, (m == m) = true ↔ .nan ∉ m.numbers) ∧
      ∀ c : Circuit, (c == c) = true ↔ .nan ∉ c.numbers) ∧
    ∀ (m n : Moment) (ops : List Operation), .nan ∉ m.numbers → m.operations.Perm ops →
      List.Forall₂ Operation.Exchanged ops n.operations → (m == n) = true := by
  refine ⟨fun m n => ?_, ⟨inferInstance, inferInstance, inferInstance⟩,
    ⟨Operation.beq_self_iff, beq_self_iff, Circuit.beq_self_iff⟩, fun m n ops => beq_of_exchanged⟩
  exact (beq_iff m n).trans (rel_coe_iff_exists_equiv m.operations n.operations)

/-- A nested rotation and a gate on two qubits, and the same in the other order with the two
qubits exchanged. -/
theorem Moment.beq_exchangedPair :
    let turned : Operation := .ofCircuit ⟨[⟨[.rx (.constant Binary64.quarterTurn) ⟨2⟩]⟩]⟩ 2
    let joined : List Qubit → Operation := .act (.gate (.standard .swap))
    ((⟨[turned, joined [⟨0⟩, ⟨1⟩]]⟩ : Moment) == ⟨[joined [⟨1⟩, ⟨0⟩], turned]⟩) = true := by
  intro turned joined
  have hnan : .nan ∉ (⟨[turned, joined [⟨0⟩, ⟨1⟩]]⟩ : Moment).numbers := by
    simp [turned, joined, numbers, Operation.ofCircuit, momentsNumbers_eq, Operation.rx,
      Operation.single, Operation.numbers, Action.numbers, Gate.numbers, StandardGate.angles,
      Angle.numbers, Binary64.quarterTurn]
  exact beq_iff_exists_equiv.2.2.2 _ _ _ hnan (.swap _ _ [])
    (.cons (.operands (.inr rfl) (.swap _ _ [])) (.cons (.same _) .nil))

end PulseScript
