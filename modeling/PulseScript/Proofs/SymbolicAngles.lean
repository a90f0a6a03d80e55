import Mathlib
import PulseScript.Proofs.Domain
import PulseScript.Proofs.ExactArithmetic

/-!
# Symbolic angles

An angle has a value exactly if no symbol stands in it and no divisor in it is zero. So a
rotation by a symbolic angle is neither a pulse nor the identity, and a circuit that performs
one, however deep in nested circuits, has no script for any target unless the rotation is
ignored on purpose.
-/
namespace PulseScript

theorem Binary64.isZero_iff (x : Binary64) : x.isZero = true ↔ x.value? = some 0 := by
  cases x with
  | nan => simp [isZero, value?, BEq.beq, beq]
  | infinite s => simp [isZero, value?, zero, BEq.beq, beq]
  | finite s m e h => rw [isZero, beq_iff rfl (value_zero false), value?, Option.some.injEq]

namespace Angle

/-- The expressions that an expression is made of. -/
def parts : Angle → List Angle
  | neg a => [a]
  | product a b => [a, b]
  | quotient a d => [a, d]
  | _ => []

inductive OccursIn (a : Angle) : Angle → Prop where
  | self : OccursIn a a
  | inside {b e : Angle} (hb : b ∈ e.parts) (h : OccursIn a b) : OccursIn a e

def Symbolic (e : Angle) : Prop := ∃ name, OccursIn (symbol name) e

/-- A quotient stands in the expression whose divisor has the value zero, of either sign. -/
def DividesByZero (e : Angle) : Prop :=
  ∃ a d x, OccursIn (quotient a d) e ∧ d.value? = some x ∧ x.value? = some 0

theorem occursIn_iff (a e : Angle) : OccursIn a e ↔ a = e ∨ ∃ b ∈ e.parts, OccursIn a b := by
  constructor
  · intro h
    cases h with
    | self => exact .inl rfl
    | inside hb h => exact .inr ⟨_, hb, h⟩
  · rintro (rfl | ⟨b, hb, h⟩)
    · exact .self
    · exact .inside hb h

theorem symbolic_iff (e : Angle) :
    e.Symbolic ↔ (∃ name, symbol name = e) ∨ ∃ b ∈ e.parts, b.Symbolic := by
  constructor
  · rintro ⟨name, h⟩
    rcases (occursIn_iff _ e).mp h with h | ⟨b, hb, h⟩
    · exact .inl ⟨name, h⟩
    · exact .inr ⟨b, hb, name, h⟩
  · rintro (⟨name, rfl⟩ | ⟨b, hb, name, h⟩)
    · exact ⟨name, .self⟩
    · exact ⟨name, .inside hb h⟩

theorem dividesByZero_iff (e : Angle) :
    e.DividesByZero ↔
      (∃ a d x, quotient a d = e ∧ d.value? = some x ∧ x.value? = some 0) ∨
        ∃ b ∈ e.parts, b.DividesByZero := by
  constructor
  · rintro ⟨a, d, x, h, hx⟩
    rcases (occursIn_iff _ e).mp h with h | ⟨b, hb, h⟩
    · exact .inl ⟨a, d, x, h, hx⟩
    · exact .inr ⟨b, hb, a, d, x, h, hx⟩
  · rintro (⟨a, d, x, rfl, hx⟩ | ⟨b, hb, a, d, x, h, hx⟩)
    · exact ⟨a, d, x, .self, hx⟩
    · exact ⟨a, d, x, .inside hb h, hx⟩

theorem exists_value?_product_iff (a b : Angle) :
    (∃ x, (product a b).value? = some x) ↔ (∃ x, a.value? = some x) ∧ ∃ x, b.value? = some x := by
  rw [value?]
  cases a.value? <;> cases b.value? <;> simp

/-- Before it divides, a quotient looks at its divisor. -/
theorem exists_value?_quotient_iff (a d : Angle) :
    (∃ x, (quotient a d).value? = some x) ↔
      (∃ x, a.value? = some x) ∧ (∃ x, d.value? = some x) ∧
        ¬ ∃ x, d.value? = some x ∧ x.value? = some 0 := by
  rw [value?]
  cases d.value? with
  | none => simp
  | some x =>
    simp only [← Binary64.isZero_iff, Option.some.injEq, exists_eq_left', exists_eq', true_and]
    cases x.isZero <;> cases a.value? <;> simp

/-- An expression has a value unless a symbol stands in it or it divides by zero somewhere. -/
theorem exists_value?_iff (e : Angle) :
    (∃ x, e.value? = some x) ↔ ¬ e.Symbolic ∧ ¬ e.DividesByZero := by
  induction e with
  | constant x =>
    rw [symbolic_iff, dividesByZero_iff]
    simp [value?, parts]
  | symbol name =>
    rw [symbolic_iff]
    simp [value?]
  | pi =>
    rw [symbolic_iff, dividesByZero_iff]
    simp [value?, parts]
  | neg a ih =>
    rw [symbolic_iff (neg a), dividesByZero_iff (neg a)]
    simpa [value?, parts] using ih
  | product a b iha ihb =>
    have hsymbolic : (product a b).Symbolic ↔ a.Symbolic ∨ b.Symbolic := by
      rw [symbolic_iff]
      simp [parts]
    have hzero : (product a b).DividesByZero ↔ a.DividesByZero ∨ b.DividesByZero := by
      rw [dividesByZero_iff]
      simp [parts]
    rw [exists_value?_product_iff, iha, ihb, hsymbolic, hzero, not_or, not_or]
    exact and_and_and_comm
  | quotient a d iha ihd =>
    have hsymbolic : (quotient a d).Symbolic ↔ a.Symbolic ∨ d.Symbolic := by
      rw [symbolic_iff]
      simp [parts]
    have hzero : (quotient a d).DividesByZero ↔
        (∃ x, d.value? = some x ∧ x.value? = some 0) ∨ a.DividesByZero ∨ d.DividesByZero := by
      rw [dividesByZero_iff]
      simp [parts]
    rw [exists_value?_quotient_iff, iha, ihd, hsymbolic, hzero, not_or, not_or, not_or]
    constructor
    · rintro ⟨⟨hsa, hza⟩, ⟨hsd, hzd⟩, hd⟩
      exact ⟨⟨hsa, hsd⟩, hd, hza, hzd⟩
    · rintro ⟨⟨hsa, hsd⟩, hd, hza, hzd⟩
      exact ⟨⟨hsa, hza⟩, ⟨hsd, hzd⟩, hd⟩

theorem wrapped?_of_symbolic {e : Angle} (h : e.Symbolic) : e.wrapped? = none := by
  have hvalue : e.value? = none :=
    Option.eq_none_iff_forall_ne_some.mpr fun x hx => ((exists_value?_iff e).mp ⟨x, hx⟩).1 h
  rw [wrapped?, hvalue]

def rotations (e : Angle) : List StandardGate := [.rx e, .ry e, .rz e]

theorem resolve?_of_symbolic {e : Angle} (h : e.Symbolic) {g : StandardGate}
    (hg : g ∈ e.rotations) : g.resolve? = none := by
  simp only [rotations, List.mem_cons, List.not_mem_nil, or_false] at hg
  rcases hg with rfl | rfl | rfl <;>
    simp only [StandardGate.resolve?, resolveRotation, wrapped?_of_symbolic h]

end Angle

/-- The operation stands in a moment of the circuit, or of a circuit nested in it, at any depth
but not inside anything that is repeated zero times. -/
inductive Circuit.Performs : Circuit → Operation → Prop where
  | here {c : Circuit} {m : Moment} {op : Operation} (hm : m ∈ c.moments)
    (ho : op ∈ m.operations) : Performs c op
  | nested {c d : Circuit} {m : Moment} {n : UInt32} {qs : List Qubit} {op : Operation}
    (hm : m ∈ c.moments) (hd : .subcircuit d n qs ∈ m.operations) (hn : n ≠ 0)
    (h : Performs d op) : Performs c op

variable {t : Target}

/-- Where all operations of the moments compile, all that are performed do. -/
theorem Circuit.Performs.compiles {c : Circuit} {op : Operation} (h : c.Performs op)
    (hc : ∀ m ∈ c.moments, ∀ op ∈ m.operations, t.Compiles op) : t.Compiles op := by
  induction h with
  | here hm ho => exact hc _ hm _ ho
  | nested hm hd hn _ ih =>
    obtain ⟨-, hinner⟩ := (Target.compiles_subcircuit_iff t _ _ _).mp (hc _ hm _ hd)
    exact ih (hinner hn)

theorem Circuit.exists_error_of_performs {c : Circuit} {op : Operation} (h : c.Performs op)
    (hop : ¬ t.Compiles op) : ∃ e, c.toScript t = .error e := by
  cases hs : c.toScript t with
  | error e => exact ⟨e, rfl⟩
  | ok s =>
    obtain ⟨-, -, hall⟩ := (Circuit.toScript_isOk_iff_compiles t c).mp ⟨s, hs⟩
    exact absurd (h.compiles hall) hop

/-- A gate that becomes nothing, not even the identity, stops the compiler on any qubits. -/
theorem Target.not_compiles_of_resolve?_eq_none {g : Gate} {qs : List Qubit}
    (hi : t.policy.ignoresAction (.gate g) = false) (hr : (Action.gate g).resolve? = none) :
    ¬ t.Compiles (.act (.gate g) qs) := by
  rintro ⟨part, hpart, -⟩
  rw [operationPart_act, Target.actionPart_eq_ok_iff] at hpart
  cases hpart with
  | ignored h => exact absurd h (by simp [hi])
  | identity _ h => exact absurd h (by simp [hr])
  | pulse _ h => exact absurd h (by simp [hr])
  | coupled => exact absurd hr (by simp [Action.resolve?, StandardGate.resolve?])

/-- An angle has a value exactly if it holds no symbol and divides nowhere by zero. A rotation by
an angle that holds a symbol has no place in the instruction table, and whatever the target is,
a circuit that performs it and does not have it ignored is refused. -/
theorem Angle.valued_iff_and_refused (e : Angle) :
    ((∃ x, e.value? = some x) ↔ ¬ e.Symbolic ∧ ¬ e.DividesByZero) ∧
    (e.Symbolic → ∀ g ∈ e.rotations, (Action.gate (.standard g)).resolve? = none ∧
      ∀ (t : Target) (c : Circuit) (qs : List Qubit),
        c.Performs (.act (.gate (.standard g)) qs) →
        t.policy.ignores (.act (.gate (.standard g)) qs) = false →
        ∃ error, c.toScript t = .error error) := by
  refine ⟨e.exists_value?_iff, fun he g hg => ?_⟩
  have hr : (Action.gate (.standard g)).resolve? = none := resolve?_of_symbolic he hg
  refine ⟨hr, fun t c qs hperforms hi => ?_⟩
  rw [IgnorePolicy.ignores_act] at hi
  exact Circuit.exists_error_of_performs hperforms (Target.not_compiles_of_resolve?_eq_none hi hr)

def Angle.halfBack : Angle := .neg (.quotient (.symbol "theta") (.constant (.ofNat 2)))

def Circuit.turnedLoop : Circuit :=
  ⟨[⟨[.ofCircuit ⟨[⟨[.x ⟨0⟩, .single (.rz .halfBack) ⟨1⟩]⟩]⟩ 2]⟩]⟩

theorem Angle.refused_turnedLoop :
    Angle.halfBack.value? = none ∧ Angle.halfBack.Symbolic ∧
      ∃ error, Circuit.turnedLoop.toScript .joinedPair = .error error := by
  have hsymbolic : Angle.halfBack.Symbolic :=
    ⟨"theta", .inside List.mem_cons_self (.inside List.mem_cons_self .self)⟩
  obtain ⟨hvalued, hrefused⟩ := Angle.valued_iff_and_refused .halfBack
  refine ⟨Option.eq_none_iff_forall_ne_some.mpr fun x hx => (hvalued.mp ⟨x, hx⟩).1 hsymbolic,
    hsymbolic, ?_⟩
  have hperforms : Circuit.turnedLoop.Performs (.single (.rz .halfBack) ⟨1⟩) :=
    .nested List.mem_cons_self List.mem_cons_self (by decide)
      (.here List.mem_cons_self (List.mem_cons_of_mem _ List.mem_cons_self))
  exact (hrefused hsymbolic (.rz .halfBack) (by simp [rotations])).2 .joinedPair _ _ hperforms rfl

end PulseScript
