import Mathlib
import PulseScript.Circuit

/-!
# Circuits that the constructors build

A moment takes an operation only on free qubits, and the constructors check operands. So
in a circuit that was built through them, at every depth, each operation has the operands
that its action takes, and the operations of a moment have no qubit in common.
-/
namespace PulseScript

/-- Induction over nested operations: what a circuit holds comes before the circuit. -/
@[elab_as_elim, induction_eliminator]
theorem Operation.nested_induction {motive : Operation → Prop}
    (act : ∀ a qs, motive (.act a qs))
    (subcircuit : ∀ c n qs, (∀ m ∈ c.moments, ∀ op ∈ m.operations, motive op) →
      motive (.subcircuit c n qs)) (op : Operation) : motive op := by
  -- the other types of the mutual block say the same of all operations that they hold
  exact @Operation.rec motive
    (fun m => ∀ op ∈ m.operations, motive op)
    (fun c => ∀ m ∈ c.moments, ∀ op ∈ m.operations, motive op)
    (fun ops => ∀ op ∈ ops, motive op)
    (fun ms => ∀ m ∈ ms, ∀ op ∈ m.operations, motive op)
    act (fun c n qs ih => subcircuit c n qs ih) (fun _ ih => ih) (fun _ ih => ih)
    (by simp) (fun op ops ih ihs => by simpa using ⟨ih, ihs⟩)
    (by simp) (fun m ms ih ihs => by simpa using ⟨ih, ihs⟩) op

/-- The operands that an action takes. -/
def Action.Takes : Action → List Qubit → Prop
  | .gate g, qs => UInt32.ofNat qs.length = g.arity ∧ qs.Nodup
  | .measure, qs => qs ≠ [] ∧ qs.Nodup
  | .delay _, qs => ∃ q, qs = [q]
  | .noise _, qs => qs ≠ [] ∧ qs.Nodup
  | .marker _, _ => True
  | .decoupling _, qs => ∃ q, qs = [q]

theorem Qubit.length_le_of_nodup {qs : List Qubit} (h : qs.Nodup) : qs.length ≤ UInt32.size := by
  have hindex : Function.Injective fun q : Qubit => q.index.toFin := by
    rintro ⟨i⟩ ⟨j⟩ hij
    exact congrArg Qubit.mk (UInt32.toFin_inj.mp hij)
  simpa using (h.map hindex).length_le_card

/-- A number of operands is only counted to 32 bits, but there are not enough qubits to exceed them
and come back to the number that a gate needs. -/
theorem Action.length_of_takes {g : Gate} {qs : List Qubit} (h : (Action.gate g).Takes qs)
    (hpos : g.arity ≠ 0) : qs.length = g.arity.toNat := by
  obtain ⟨hcount, hnodup⟩ := h
  rcases (Qubit.length_le_of_nodup hnodup).eq_or_lt with hall | hlt
  · rw [hall] at hcount
    exact absurd hcount.symm hpos
  · rw [← hcount, UInt32.toNat_ofNat_of_lt' hlt]

/-- Two operations have no qubit in common. -/
def Operation.Apart (x y : Operation) : Prop := x.qubits.Disjoint y.qubits

theorem Operation.Apart.symm {x y : Operation} (h : x.Apart y) : y.Apart x :=
  List.Disjoint.symm h

instance : Std.Symm Operation.Apart := ⟨fun _ _ h => h.symm⟩

/-- Every action has the operands that it takes, a nested circuit is repeated on its own
qubits, and the operations of its moments are apart. -/
inductive Operation.WellFormed : Operation → Prop where
  | act {a : Action} {qs : List Qubit} (h : a.Takes qs) : WellFormed (.act a qs)
  | subcircuit {c : Circuit} {n : UInt32}
    (apart : ∀ m ∈ c.moments, m.operations.Pairwise Operation.Apart)
    (inner : ∀ m ∈ c.moments, ∀ op ∈ m.operations, WellFormed op) :
    WellFormed (.subcircuit c n c.qubits)

structure Moment.WellFormed (m : Moment) : Prop where
  apart : m.operations.Pairwise Operation.Apart
  each : ∀ op ∈ m.operations, op.WellFormed

def Circuit.WellFormed (c : Circuit) : Prop := ∀ m ∈ c.moments, m.WellFormed

theorem Operation.wellFormed_ofCircuit {c : Circuit} (h : c.WellFormed) (n : UInt32) :
    (Operation.ofCircuit c n).WellFormed :=
  .subcircuit (fun m hm => (h m hm).apart) (fun m hm => (h m hm).each)

/-- A nested circuit of a well-formed operation. -/
theorem Operation.WellFormed.nested {c : Circuit} {n : UInt32} {qs : List Qubit}
    (h : (Operation.subcircuit c n qs).WellFormed) : qs = c.qubits ∧ c.WellFormed := by
  cases h with
  | subcircuit apart inner => exact ⟨rfl, fun m hm => ⟨apart m hm, inner m hm⟩⟩

mutual
/-- An operation that one of the constructors makes. -/
inductive Operation.Built : Operation → Prop where
  | gate {g : Gate} {qs : List Qubit} {op : Operation} (h : Operation.ofGate g qs = .ok op) :
    Operation.Built op
  | measure {qs : List Qubit} {op : Operation} (h : Operation.ofMeasure qs = .ok op) :
    Operation.Built op
  | delay (q : Qubit) (nanoseconds : UInt64) : Operation.Built (.ofDelay q nanoseconds)
  | noise {channel : NoiseChannel} {qs : List Qubit} {op : Operation}
    (h : Operation.ofNoise channel qs = .ok op) : Operation.Built op
  | marker (a : Marker) (qs : List Qubit) : Operation.Built (.ofMarker a qs)
  | decoupling (d : Decoupling) (q : Qubit) : Operation.Built (.ofDecoupling d q)
  | circuit (c : Circuit) (repetitions : UInt32) (h : ∀ m ∈ c.moments, Moment.Built m) :
    Operation.Built (.ofCircuit c repetitions)

inductive Moment.Built : Moment → Prop where
  | empty : Moment.Built .empty
  | push {m m' : Moment} {op : Operation} (h : Moment.Built m) (ho : Operation.Built op)
    (hp : m.push op = .ok m') : Moment.Built m'
end

def Circuit.Built (c : Circuit) : Prop := ∀ m ∈ c.moments, m.Built

theorem Qubit.firstRepeat?_eq_none_iff (seen qs : List Qubit) :
    Qubit.firstRepeat? seen qs = none ↔ qs.Nodup ∧ ∀ q ∈ qs, q ∉ seen := by
  induction qs generalizing seen with
  | nil => simp [Qubit.firstRepeat?]
  | cons q qs ih =>
    rw [Qubit.firstRepeat?]
    by_cases hq : q ∈ seen
    · simp [hq]
    · rw [if_neg hq, ih, List.nodup_cons]
      simp only [List.mem_cons, not_or, forall_eq_or_imp]
      constructor
      · rintro ⟨hn, hs⟩
        exact ⟨⟨fun hm => (hs q hm).1 rfl, hn⟩, hq, fun r hr => (hs r hr).2⟩
      · rintro ⟨⟨hm, hn⟩, -, hs⟩
        exact ⟨hn, fun r hr => ⟨fun he => hm (he ▸ hr), hs r hr⟩⟩

namespace Operation

theorem checkDistinct_eq_ok_iff (qs : List Qubit) (name : String) :
    checkDistinct qs name = .ok () ↔ qs.Nodup := by
  have hnone : Qubit.firstRepeat? [] qs = none ↔ qs.Nodup := by
    simp [Qubit.firstRepeat?_eq_none_iff]
  rw [checkDistinct, ← hnone]
  cases Qubit.firstRepeat? [] qs <;> simp

theorem ofGate_eq_ok_iff (g : Gate) (qs : List Qubit) (op : Operation) :
    ofGate g qs = .ok op ↔ (Action.gate g).Takes qs ∧ op = .act (.gate g) qs := by
  rw [Action.Takes, ← checkDistinct_eq_ok_iff qs g.name, ofGate]
  by_cases hlen : UInt32.ofNat qs.length = g.arity
  · cases hd : checkDistinct qs g.name <;>
      simp [hlen, pure, Except.pure, bind, Except.bind, @eq_comm _ op]
  · simp [hlen, throw, throwThe, MonadExceptOf.throw, bind, Except.bind]

theorem ofMeasure_eq_ok_iff (qs : List Qubit) (op : Operation) :
    ofMeasure qs = .ok op ↔ Action.measure.Takes qs ∧ op = .act .measure qs := by
  rw [Action.Takes, ← checkDistinct_eq_ok_iff qs "measure", ofMeasure]
  by_cases hne : qs = []
  · simp [hne, throw, throwThe, MonadExceptOf.throw, bind, Except.bind]
  · cases hd : checkDistinct qs "measure" <;>
      simp [hne, pure, Except.pure, bind, Except.bind, @eq_comm _ op]

theorem ofNoise_eq_ok_iff (channel : NoiseChannel) (qs : List Qubit) (op : Operation) :
    ofNoise channel qs = .ok op ↔
      (Action.noise channel).Takes qs ∧ op = .act (.noise channel) qs := by
  rw [Action.Takes, ← checkDistinct_eq_ok_iff qs channel.name, ofNoise]
  by_cases hne : qs = []
  · simp [hne, throw, throwThe, MonadExceptOf.throw, bind, Except.bind]
  · cases hd : checkDistinct qs channel.name <;>
      simp [hne, pure, Except.pure, bind, Except.bind, @eq_comm _ op]

end Operation

namespace Moment

theorem operatesOn_eq_false_iff (m : Moment) (q : Qubit) :
    m.operatesOn q = false ↔ ∀ op ∈ m.operations, q ∉ op.qubits := by
  simp [operatesOn, Operation.actsOn]

/-- A moment takes exactly the operations that are apart from all of its own. -/
theorem push_eq_ok_iff (m m' : Moment) (op : Operation) :
    m.push op = .ok m' ↔
      (∀ x ∈ m.operations, x.Apart op) ∧ m' = ⟨m.operations ++ [op]⟩ := by
  have hfree : op.qubits.find? m.operatesOn = none ↔ ∀ x ∈ m.operations, x.Apart op := by
    rw [List.find?_eq_none]
    simp only [Bool.not_eq_true, operatesOn_eq_false_iff]
    exact ⟨fun h x hx q hxq hq => h q hq x hx hxq, fun h q hq x hx hxq => h x hx hxq hq⟩
  rw [push, ← hfree]
  cases op.qubits.find? m.operatesOn <;> simp [eq_comm]

theorem WellFormed.empty : Moment.empty.WellFormed := ⟨by simp [Moment.empty], by simp [Moment.empty]⟩

theorem WellFormed.push {m m' : Moment} {op : Operation} (h : m.WellFormed) (ho : op.WellFormed)
    (hp : m.push op = .ok m') : m'.WellFormed := by
  obtain ⟨hapart, rfl⟩ := (push_eq_ok_iff m m' op).mp hp
  constructor
  · exact List.pairwise_append.mpr ⟨h.apart, by simp, by simpa using hapart⟩
  · intro x hx
    rcases List.mem_append.mp hx with hx | hx
    · exact h.each x hx
    · rw [List.mem_singleton.mp hx]
      exact ho

end Moment

theorem Moment.built_singleton {op : Operation} (h : op.Built) : Moment.Built ⟨[op]⟩ :=
  .push .empty h ((push_eq_ok_iff _ _ _).mpr ⟨by simp [empty], rfl⟩)

/-- Whatever the constructors make is well-formed. -/
theorem Moment.Built.wellFormed {m : Moment} (h : m.Built) : m.WellFormed := by
  refine @Moment.Built.rec (fun op _ => op.WellFormed) (fun m _ => m.WellFormed)
    ?gate ?measure ?delay ?noise ?marker ?decoupling ?circuit ?empty ?push m h
  case gate =>
    intro g qs op h
    obtain ⟨ht, rfl⟩ := (Operation.ofGate_eq_ok_iff g qs op).mp h
    exact .act ht
  case measure =>
    intro qs op h
    obtain ⟨ht, rfl⟩ := (Operation.ofMeasure_eq_ok_iff qs op).mp h
    exact .act ht
  case delay => exact fun q ns => .act ⟨q, rfl⟩
  case noise =>
    intro channel qs op h
    obtain ⟨ht, rfl⟩ := (Operation.ofNoise_eq_ok_iff channel qs op).mp h
    exact .act ht
  case marker => exact fun a qs => .act trivial
  case decoupling => exact fun d q => .act ⟨q, rfl⟩
  case circuit => exact fun c n _ ih => Operation.wellFormed_ofCircuit ih n
  case empty => exact WellFormed.empty
  case push => exact fun _ _ hp ih iho => ih.push iho hp

theorem Circuit.Built.wellFormed {c : Circuit} (h : c.Built) : c.WellFormed :=
  fun m hm => (h m hm).wellFormed

@[simp] theorem Qubit.mem_sorted {q : Qubit} {qs : List Qubit} : q ∈ Qubit.sorted qs ↔ q ∈ qs := by
  simp [Qubit.sorted]

@[simp] theorem Moment.mem_qubits {m : Moment} {q : Qubit} :
    q ∈ m.qubits ↔ ∃ op ∈ m.operations, q ∈ op.qubits := by
  rw [Moment.qubits, List.mem_flatMap]
  refine exists_congr fun op => and_congr_right fun _ => ?_
  cases op <;> rfl

/-- A qubit of a circuit is a qubit of one of its operations. -/
theorem Circuit.mem_qubits {c : Circuit} {q : Qubit} :
    q ∈ c.qubits ↔ ∃ m ∈ c.moments, ∃ op ∈ m.operations, q ∈ op.qubits := by
  simp [Circuit.qubits]

end PulseScript
