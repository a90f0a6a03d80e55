import Mathlib
import PulseScript.Operation

/-!
# Equality of the values in operations

Numbers are compared as such, so a NaN is equal to nothing, itself included, and the two
zeros are equal. Every value that holds numbers inherits this: equality is symmetric and
transitive, and a value equals itself exactly if no NaN occurs in it.
-/
namespace PulseScript

section Containers

variable {α β : Type} [BEq α] [BEq β]

instance instPartialEquivBEqList [PartialEquivBEq α] : PartialEquivBEq (List α) where
  symm {xs ys} h := by
    induction xs generalizing ys with
    | nil => cases ys <;> simp_all
    | cons x xs ih =>
      cases ys with
      | nil => exact absurd h (by simp)
      | cons y ys =>
        rw [List.cons_beq_cons, Bool.and_eq_true] at h ⊢
        exact ⟨BEq.symm h.1, ih h.2⟩
  trans {xs ys zs} h h' := by
    induction xs generalizing ys zs with
    | nil => cases ys <;> simp_all
    | cons x xs ih =>
      cases ys with
      | nil => exact absurd h (by simp)
      | cons y ys =>
        cases zs with
        | nil => exact absurd h' (by simp)
        | cons z zs =>
          rw [List.cons_beq_cons, Bool.and_eq_true] at h h' ⊢
          exact ⟨BEq.trans h.1 h'.1, ih h.2 h'.2⟩

instance instPartialEquivBEqPair [PartialEquivBEq α] [PartialEquivBEq β] :
    PartialEquivBEq (α × β) where
  symm {p q} h := by
    change (_ && _) = true at h ⊢
    rw [Bool.and_eq_true] at h ⊢
    exact ⟨BEq.symm h.1, BEq.symm h.2⟩
  trans {p q r} h h' := by
    change (_ && _) = true at h h' ⊢
    rw [Bool.and_eq_true] at h h' ⊢
    exact ⟨BEq.trans h.1 h'.1, BEq.trans h.2 h'.2⟩

/-- Values that are compared by keys inherit the laws of the keys. -/
theorem partialEquivBEq_of_key [PartialEquivBEq β] (key : α → β)
    (h : ∀ a b, (a == b) = (key a == key b)) : PartialEquivBEq α where
  symm {a b} hab := by
    rw [h] at hab ⊢
    exact BEq.symm hab
  trans {a b c} hab hbc := by
    rw [h] at hab hbc ⊢
    exact BEq.trans hab hbc

@[simp] theorem list_beq_self_iff (xs : List α) :
    (xs == xs) = true ↔ ∀ x ∈ xs, (x == x) = true := by
  induction xs with
  | nil => simp
  | cons x xs ih => rw [List.cons_beq_cons, Bool.and_eq_true, ih, List.forall_mem_cons]

@[simp] theorem pair_beq_self_iff (p : α × β) :
    (p == p) = true ↔ (p.1 == p.1) = true ∧ (p.2 == p.2) = true := by
  change (_ && _) = true ↔ _
  rw [Bool.and_eq_true]

/-- Lists of pairs are equal if the lists of both sides are. -/
theorem pairs_beq_eq (ps qs : List (α × β)) :
    (ps == qs) = (ps.map (·.1) == qs.map (·.1) && ps.map (·.2) == qs.map (·.2)) := by
  induction ps generalizing qs with
  | nil => cases qs <;> simp
  | cons p ps ih =>
    cases qs with
    | nil => simp
    | cons q qs =>
      have hpair : (p == q) = (p.1 == q.1 && p.2 == q.2) := rfl
      simp only [List.cons_beq_cons, List.map_cons, ih, hpair]
      ac_rfl

end Containers

namespace Binary64

instance : PartialEquivBEq Binary64 where
  symm {x y} h := by
    change Binary64.beq _ _ = true at h ⊢
    cases x <;> cases y <;> simp [Binary64.beq] at h ⊢
    · exact h.symm
    · grind
  trans {x y z} h h' := by
    change Binary64.beq _ _ = true at h h' ⊢
    cases x <;> cases y <;> simp [Binary64.beq] at h <;> cases z <;> simp [Binary64.beq] at h' ⊢
    · exact h.trans h'
    · grind

/-- A NaN is the only number that is not equal to itself. -/
@[simp] theorem beq_self_iff (x : Binary64) : (x == x) = true ↔ x ≠ .nan := by
  change Binary64.beq x x = true ↔ _
  cases x <;> simp [Binary64.beq]

theorem list_self_iff (xs : List Binary64) : (xs == xs) = true ↔ .nan ∉ xs := by
  rw [list_beq_self_iff]
  simp only [beq_self_iff]
  exact ⟨fun h hx => h _ hx rfl, fun h x hx he => h (he ▸ hx)⟩

end Binary64

namespace Angle

def numbers : Angle → List Binary64
  | constant x => [x]
  | symbol _ => []
  | pi => []
  | neg a => a.numbers
  | product a b => a.numbers ++ b.numbers
  | quotient a b => a.numbers ++ b.numbers

instance : PartialEquivBEq Angle where
  symm {a d} h := by
    change Angle.beq _ _ = true at h ⊢
    induction a generalizing d with
    | constant x | symbol m =>
      cases d <;> simp only [Angle.beq, Bool.false_eq_true] at h ⊢
      exact BEq.symm h
    | pi => cases d <;> simp only [Angle.beq, Bool.false_eq_true] at h ⊢
    | neg a ih =>
      cases d <;> simp only [Angle.beq, Bool.false_eq_true] at h ⊢
      exact ih h
    | product a b iha ihb | quotient a b iha ihb =>
      cases d <;> simp only [Angle.beq, Bool.false_eq_true, Bool.and_eq_true] at h ⊢
      exact ⟨iha h.1, ihb h.2⟩
  trans {a d e} h h' := by
    change Angle.beq _ _ = true at h h' ⊢
    induction a generalizing d e with
    | constant x | symbol m =>
      cases d <;> simp only [Angle.beq, Bool.false_eq_true] at h
      cases e <;> simp only [Angle.beq, Bool.false_eq_true] at h' ⊢
      exact BEq.trans h h'
    | pi =>
      cases d <;> simp only [Angle.beq, Bool.false_eq_true] at h
      exact h'
    | neg a ih =>
      cases d <;> simp only [Angle.beq, Bool.false_eq_true] at h
      cases e <;> simp only [Angle.beq, Bool.false_eq_true] at h' ⊢
      exact ih h h'
    | product a b iha ihb | quotient a b iha ihb =>
      cases d <;> simp only [Angle.beq, Bool.false_eq_true, Bool.and_eq_true] at h
      cases e <;> simp only [Angle.beq, Bool.false_eq_true, Bool.and_eq_true] at h' ⊢
      exact ⟨iha h.1 h'.1, ihb h.2 h'.2⟩

@[simp] theorem beq_self_iff (a : Angle) : (a == a) = true ↔ .nan ∉ a.numbers := by
  change Angle.beq a a = true ↔ _
  induction a with
  | constant x => simp [Angle.beq, numbers, ne_comm]
  | symbol name => simp [Angle.beq, numbers]
  | pi => simp [Angle.beq, numbers]
  | neg a ih => simpa [Angle.beq, numbers] using ih
  | product a b iha ihb | quotient a b iha ihb => simp [Angle.beq, numbers, iha, ihb]

end Angle

namespace StandardGate

def angles : StandardGate → List Angle
  | rx a => [a]
  | ry a => [a]
  | rz a => [a]
  | _ => []

/-- Gates are equal if they have the same name and equal angles. -/
theorem beq_eq (g h : StandardGate) : (g == h) = ((g.name, g.angles) == (h.name, h.angles)) := by
  change StandardGate.beq g h = (g.name == h.name && g.angles == h.angles)
  cases g <;> cases h <;> simp [StandardGate.beq, name, angles]

instance : PartialEquivBEq StandardGate := partialEquivBEq_of_key _ beq_eq

end StandardGate

namespace CustomGate

theorem beq_eq (g h : CustomGate) :
    (g == h) = (((g.name, g.arity), g.params) == ((h.name, h.arity), h.params)) := rfl

instance : PartialEquivBEq CustomGate := partialEquivBEq_of_key _ beq_eq

end CustomGate

namespace Gate

def numbers : Gate → List Binary64
  | standard g => g.angles.flatMap Angle.numbers
  | custom g => g.params.flatMap Angle.numbers

instance : PartialEquivBEq Gate where
  symm {g h} hgh := by
    change Gate.beq _ _ = true at hgh ⊢
    cases g <;> cases h <;> simp only [Gate.beq, Bool.false_eq_true] at hgh ⊢ <;> exact BEq.symm hgh
  trans {g h k} hgh hhk := by
    change Gate.beq _ _ = true at hgh hhk ⊢
    cases g <;> cases h <;> simp only [Gate.beq, Bool.false_eq_true] at hgh <;>
      cases k <;> simp only [Gate.beq, Bool.false_eq_true] at hhk ⊢ <;> exact BEq.trans hgh hhk

@[simp] theorem beq_self_iff (g : Gate) : (g == g) = true ↔ .nan ∉ g.numbers := by
  change Gate.beq g g = true ↔ _
  cases g with
  | standard g => simp [Gate.beq, StandardGate.beq_eq, numbers]
  | custom g => simp [Gate.beq, CustomGate.beq_eq, numbers]

end Gate

namespace NoiseChannel

def numbers : NoiseChannel → List Binary64
  | depolarizing p => [p]
  | asymmetricDepolarizing x y z => [x, y, z]
  | amplitudeDamping g => [g]
  | phaseDamping g => [g]
  | bitFlip p => [p]
  | phaseFlip p => [p]
  | custom _ params => params.toList.map (·.2)

/-- The parameters of a channel with a name of its own. -/
def params? : NoiseChannel → Option (List String)
  | custom _ params => some (params.toList.map (·.1))
  | _ => none

/-- Channels are equal if they have the same name and parameters with equal numbers. -/
theorem beq_eq (c d : NoiseChannel) :
    (c == d) = (((c.name, c.params?), c.numbers) == ((d.name, d.params?), d.numbers)) := by
  change NoiseChannel.beq c d =
    ((c.name == d.name && c.params? == d.params?) && c.numbers == d.numbers)
  cases c <;> cases d <;>
    simp [NoiseChannel.beq, name, params?, numbers, pairs_beq_eq, Bool.and_assoc]

instance : PartialEquivBEq NoiseChannel := partialEquivBEq_of_key _ beq_eq

@[simp] theorem beq_self_iff (c : NoiseChannel) : (c == c) = true ↔ .nan ∉ c.numbers := by
  rw [beq_eq, pair_beq_self_iff, Binary64.list_self_iff]
  simp

end NoiseChannel

namespace Marker

def numbers : Marker → List Binary64
  | detector coords => coords
  | observable _ => []
  | shiftCoords shift => shift

def index? : Marker → Option UInt32
  | observable i => some i
  | _ => none

/-- Markers are equal if they are of the same kind, with the same index or equal numbers. -/
theorem beq_eq (a b : Marker) :
    (a == b) = (((a.name, a.index?), a.numbers) == ((b.name, b.index?), b.numbers)) := by
  change Marker.beq a b = ((a.name == b.name && a.index? == b.index?) && a.numbers == b.numbers)
  cases a <;> cases b <;> simp [Marker.beq, name, index?, numbers]

instance : PartialEquivBEq Marker := partialEquivBEq_of_key _ beq_eq

@[simp] theorem beq_self_iff (a : Marker) : (a == a) = true ↔ .nan ∉ a.numbers := by
  rw [beq_eq, pair_beq_self_iff, Binary64.list_self_iff]
  simp

end Marker

namespace Decoupling

def numbers (d : Decoupling) : List Binary64 := [d.total, d.pulse]

theorem beq_eq (d e : Decoupling) :
    (d == e) = (((d.pattern, d.repeats), d.numbers) == ((e.pattern, e.repeats), e.numbers)) := by
  change Decoupling.beq d e =
    ((d.pattern == e.pattern && d.repeats == e.repeats) && d.numbers == e.numbers)
  simp [Decoupling.beq, numbers, Bool.and_assoc]

instance : PartialEquivBEq Decoupling := partialEquivBEq_of_key _ beq_eq

@[simp] theorem beq_self_iff (d : Decoupling) : (d == d) = true ↔ .nan ∉ d.numbers := by
  rw [beq_eq, pair_beq_self_iff, Binary64.list_self_iff]
  simp

end Decoupling

namespace Action

def numbers : Action → List Binary64
  | gate g => g.numbers
  | measure => []
  | delay _ => []
  | noise channel => channel.numbers
  | marker a => a.numbers
  | decoupling d => d.numbers

instance : PartialEquivBEq Action where
  symm {a b} h := by
    change Action.beq _ _ = true at h ⊢
    cases a <;> cases b <;> simp only [Action.beq, Bool.false_eq_true] at h ⊢ <;> exact BEq.symm h
  trans {a b c} h h' := by
    change Action.beq _ _ = true at h h' ⊢
    cases a <;> cases b <;> simp only [Action.beq, Bool.false_eq_true] at h <;>
      cases c <;> simp only [Action.beq, Bool.false_eq_true] at h' ⊢ <;> exact BEq.trans h h'

@[simp] theorem beq_self_iff (a : Action) : (a == a) = true ↔ .nan ∉ a.numbers := by
  change Action.beq a a = true ↔ _
  cases a <;> simp [Action.beq, numbers]

end Action
end PulseScript
