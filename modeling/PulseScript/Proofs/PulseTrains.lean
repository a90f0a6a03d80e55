import Mathlib
import PulseScript.Proofs.IdleTimes

/-!
# The shape of a played sequence

A sequence is played as idle time and pulses in turn, with idle time at both ends. Its pulses are
counted in two ways, from the parameters and by listing them, and both counts agree, so the length
of the list of instructions is known from the parameters. Where the pulses read the same from both
ends, so do the instructions. A block adds its two markers and two headers, and it is written for
exactly the sequences that are valid, which bounds its length.
-/
namespace PulseScript

section Separator

variable {α : Type} (sep : α)

theorem intersperse_concat {xs : List α} (h : xs ≠ []) (x : α) :
    (xs ++ [x]).intersperse sep = xs.intersperse sep ++ [sep, x] := by
  induction xs with
  | nil => exact absurd rfl h
  | cons y ys ih =>
    cases ys with
    | nil => rfl
    | cons z zs =>
      have hrest := ih (by simp)
      rw [List.cons_append, List.cons_append, List.intersperse_cons_cons,
        List.intersperse_cons_cons, ← List.cons_append, hrest]
      rfl

theorem reverse_intersperse (xs : List α) :
    (xs.intersperse sep).reverse = xs.reverse.intersperse sep := by
  induction xs with
  | nil => rfl
  | cons x xs ih =>
    cases xs with
    | nil => rfl
    | cons y ys =>
      have hne : (y :: ys).reverse ≠ [] := by simp
      rw [List.intersperse_cons_cons, List.reverse_cons, List.reverse_cons, ih,
        @List.reverse_cons α x (y :: ys), intersperse_concat sep hne, List.append_assoc]
      rfl

end Separator

namespace Decoupling

variable {d : Decoupling} {label : String}

/-- Pulses along one axis, and pulses followed by as many in the opposite order, read the same from
both ends. -/
theorem reverse_pulses (h : d.pattern ≠ .xy) : d.pulses.reverse = d.pulses := by
  obtain ⟨pattern, n, total, pulse⟩ := d
  cases pattern with
  | cpmg axis => exact List.reverse_replicate
  | xy => exact absurd rfl h
  | xyyx => simp [pulses, List.reverse_flatten]

/-- Pairs along both axes hold as many pulses along one as along the other. -/
theorem count_pulses (h : d.pattern = .xy ∨ d.pattern = .xyyx) :
    d.pulses.count .x = d.pulses.count .y := by
  obtain ⟨pattern, n, total, pulse⟩ := d
  rcases h with rfl | rfl
  · simp [pulses, List.count_flatten, List.map_replicate]
  · simp [pulses, List.count_append, List.count_flatten, List.map_replicate]

/-- Idle time stands at both ends and between any two pulses, the same at both ends and the same in
all places between, and the pulses stand in their order. -/
structure Alternates (d : Decoupling) (label : String) (lines : List String) : Prop where
  length : lines.length = 2 * d.numPulses + 1
  first : lines[0]? = some (idleLine label d.edgeIdle)
  last : lines[2 * d.numPulses]? = some (idleLine label d.edgeIdle)
  between : ∀ k, 0 < k → k < d.numPulses → lines[2 * k]? = some (idleLine label d.middleIdle)
  pulse : ∀ k, k < d.numPulses → lines[2 * k + 1]? = d.pulses[k]?.map (pulseLine label)

theorem expand_alternates (h : 1 ≤ d.numPulses) : d.Alternates label (d.expand label) := by
  have hcount : (d.pulses.map (pulseLine label)).length = d.numPulses := by
    rw [List.length_map, length_pulses]
  have hlength : ((d.pulses.map (pulseLine label)).intersperse
      (idleLine label d.middleIdle)).length = 2 * d.numPulses - 1 := by
    rw [List.length_intersperse, hcount]
  refine ⟨?_, rfl, ?_, fun k hpos hk => ?_, fun k hk => ?_⟩
  · rw [expand, List.length_cons, List.length_append, hlength, List.length_singleton]
    omega
  · have hplace : 2 * d.numPulses = 2 * d.numPulses - 1 + 1 := by omega
    rw [hplace, expand, List.getElem?_cons_succ, ← hlength, List.getElem?_concat_length]
  · -- the separators stand at the odd places between the pulses
    obtain ⟨j, rfl⟩ : ∃ j, k = j + 1 := ⟨k - 1, by omega⟩
    have hplace : 2 * (j + 1) = 2 * j + 1 + 1 := by omega
    rw [hplace, expand, List.getElem?_cons_succ, List.getElem?_append_left (by omega),
      List.getElem?_intersperse_two_mul_add_one (by omega)]
  · rw [expand, List.getElem?_cons_succ, List.getElem?_append_left (by omega),
      List.getElem?_intersperse_two_mul, List.getElem?_map]

/-- The instructions read the same from both ends if the pulses do. -/
theorem reverse_expand (h : d.pulses.reverse = d.pulses) :
    (d.expand label).reverse = d.expand label := by
  have hpulses : (d.pulses.map (pulseLine label)).reverse = d.pulses.map (pulseLine label) := by
    rw [← List.map_reverse, h]
  rw [expand, List.reverse_cons, List.reverse_append, reverse_intersperse, hpulses]
  rfl

theorem contextLines_of_invalid {cause : DecouplingError} (h : d.validate = .error cause) :
    d.contextLines label = .error (.build (.invalidDecoupling cause)) := by
  rw [contextLines, h]

/-- The lines of the block for a valid sequence. -/
theorem contextLines_of_valid (h : d.validate = .ok ()) : d.contextLines label =
    .ok ([contextStart, ContextHeader.gate.opening ++ d.gateContent,
      ContextHeader.targets.opening ++ targetsContent label] ++ d.expand label ++
      [contextEnd]) := by
  rw [contextLines, h]
  rfl

/-- A sequence is played as one more idle time than it has pulses, and the pulses in turn with them:
the pulses of the sequence in their order, as many as its parameters say, with the same idle time at
both ends and the same between any two. Pulses along one axis, and those followed by as many in the
opposite order, are played the same from both ends, and pairs along both axes play as many pulses
along one as along the other. The block of a sequence is written exactly if the sequence is valid:
the start marker, the two headers, the instructions, of which there are not too many, and the end
marker. -/
theorem played_and_written (d : Decoupling) (label : String) :
    d.pulses.length = d.numPulses ∧
    (1 ≤ d.numPulses → d.Alternates label (d.expand label)) ∧
    (d.pattern ≠ .xy → (d.expand label).reverse = d.expand label) ∧
    (d.pattern = .xy ∨ d.pattern = .xyyx → d.pulses.count .x = d.pulses.count .y) ∧
    (∀ e, d.contextLines label = .error e ↔
      ∃ cause, d.validate = .error cause ∧ e = .build (.invalidDecoupling cause)) ∧
    (d.validate = .ok () → ∃ lines, d.contextLines label = .ok lines ∧
      lines.length = 2 * d.numPulses + 5 ∧ d.numPulses ≤ 100000 ∧
      lines = ["# CIRQ_CONTEXT_START", "# Gate: " ++ d.gateContent,
        "# Targets: " ++ targetsContent label] ++ d.expand label ++ ["# CIRQ_CONTEXT_END"]) := by
  refine ⟨d.length_pulses, expand_alternates, fun h => reverse_expand (reverse_pulses h),
    count_pulses, fun e => ?_, fun h => ?_⟩
  · cases hv : d.validate with
    | error cause => simp [contextLines_of_invalid hv, eq_comm]
    | ok => simp [contextLines_of_valid hv]
  · obtain ⟨T, p, hfits⟩ := exists_fits h
    have halternates : d.Alternates label (d.expand label) := expand_alternates hfits.count_pos
    refine ⟨_, contextLines_of_valid h, ?_, hfits.count_le, rfl⟩
    rw [List.length_append, List.length_append, halternates.length]
    simp only [List.length_cons, List.length_nil]
    omega

theorem played_and_written_microsecond :
    microsecond.Alternates "Q00" (microsecond.expand "Q00") ∧
    (microsecond.expand "Q00").reverse = microsecond.expand "Q00" ∧
    microsecond.pulses.count .x = microsecond.pulses.count .y ∧
    ∃ lines, microsecond.contextLines "Q00" = .ok lines ∧ lines.length = 21 := by
  obtain ⟨-, halternates, hreverse, hcount, -, hwritten⟩ := played_and_written microsecond "Q00"
  have hone : 1 ≤ microsecond.numPulses := by decide
  have hpattern : microsecond.pattern ≠ .xy := by decide
  obtain ⟨lines, hlines, hlength, -⟩ := hwritten (by decide +kernel)
  exact ⟨halternates hone, hreverse hpattern, hcount (.inr rfl), lines, hlines, hlength⟩

end Decoupling
end PulseScript
