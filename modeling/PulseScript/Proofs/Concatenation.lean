import Mathlib
import PulseScript.Proofs.Assembling
import PulseScript.Proofs.Domain

/-!
# Scripts in pieces

A moment is compiled without regard to what was written before it, and a nested circuit without
regard to how often it has been written already. So the script of moments one after the other is
their scripts one after the other. A circuit that is nested alone in a moment closes that moment
with its own last barrier, and its script is written once for each repetition, which multiplies
where circuits are nested in each other.
-/
namespace PulseScript

theorem scriptText_eq_join {lines : List String} (h : lines ≠ []) :
    scriptText lines = String.join (lines.map (· ++ "\n")) := by
  rw [scriptText, if_neg (by simpa using h), String.join_eq, List.flatMap_def, List.map_map]
  simp [Function.comp_def]

theorem scriptText_append {xs ys : List String} (hx : xs ≠ []) (hy : ys ≠ []) :
    scriptText (xs ++ ys) = scriptText xs ++ scriptText ys := by
  rw [scriptText_eq_join hx, scriptText_eq_join hy, ← String.join_append, ← List.map_append,
    scriptText_eq_join (by simp [hx])]

def repeatText (n : Nat) (s : String) : String := String.join (List.replicate n s)

theorem repeatText_succ (n : Nat) (s : String) : repeatText (n + 1) s = s ++ repeatText n s := by
  rw [repeatText, List.replicate_succ, String.join_cons, repeatText]

theorem repeatText_one (s : String) : repeatText 1 s = s := by
  simp [repeatText, String.join_cons]

theorem repeatText_add (m n : Nat) (s : String) :
    repeatText (m + n) s = repeatText m s ++ repeatText n s := by
  rw [repeatText, ← List.replicate_append_replicate, String.join_append, repeatText, repeatText]

theorem repeatText_mul (m n : Nat) (s : String) :
    repeatText (m * n) s = repeatText m (repeatText n s) := by
  induction m with
  | zero => simp [repeatText]
  | succ m ih => rw [Nat.succ_mul, Nat.add_comm, repeatText_add, ih, repeatText_succ]

/-- Lines that are repeated are the text that is repeated. -/
theorem scriptText_repeatLines {lines : List String} (h : lines ≠ []) {n : Nat} (hn : n ≠ 0) :
    scriptText (repeatLines n lines) = repeatText n (scriptText lines) := by
  obtain ⟨n, rfl⟩ := Nat.exists_eq_succ_of_ne_zero hn
  rw [repeatLines_eq]
  clear hn
  induction n with
  | zero => simp [repeatText_one]
  | succ n ih =>
    rw [List.replicate_succ, List.flatten_cons, scriptText_append h (by simp [h]), ih]
    exact (repeatText_succ _ _).symm

variable {t : Target}

/-- Moments have lines, if only a barrier. -/
theorem ne_nil_of_momentsLines {ms : List Moment} (hne : ms ≠ []) {lines : List String}
    (h : momentsLines t ms = .ok lines) : lines ≠ [] := by
  obtain ⟨m, ms, rfl⟩ := List.exists_cons_of_ne_nil hne
  obtain ⟨parts, -, front, hfront, rest, -, rfl⟩ := (momentsLines_cons_eq_ok_iff t m ms lines).mp h
  obtain ⟨nested, -, rfl⟩ := (partsLines_eq_ok_iff t parts front).mp hfront
  by_cases hnested : nested = [] <;> simp [hnested]

/-- The lines of moments are found one moment at a time. -/
theorem momentsLines_append_eq_ok_iff (ms ns : List Moment) (lines : List String) :
    momentsLines t (ms ++ ns) = .ok lines ↔ ∃ xs ys, momentsLines t ms = .ok xs ∧
      momentsLines t ns = .ok ys ∧ lines = xs ++ ys := by
  induction ms generalizing lines with
  | nil => simp [momentsLines, eq_comm]
  | cons m ms ih =>
    simp only [List.cons_append, momentsLines_cons_eq_ok_iff, ih]
    constructor
    · rintro ⟨parts, hparts, front, hfront, _, ⟨xs, ys, hxs, hys, rfl⟩, rfl⟩
      exact ⟨front ++ xs, ys, ⟨parts, hparts, front, hfront, xs, hxs, rfl⟩, hys, by simp⟩
    · rintro ⟨_, ys, ⟨parts, hparts, front, hfront, xs, hxs, rfl⟩, hys, rfl⟩
      exact ⟨parts, hparts, front, hfront, _, ⟨xs, ys, hxs, hys, rfl⟩, by simp⟩

theorem momentsNeedCouplers_append (p : IgnorePolicy) (ms ns : List Moment) :
    momentsNeedCouplers p (ms ++ ns) =
      (momentsNeedCouplers p ms || momentsNeedCouplers p ns) := by
  induction ms with
  | nil => simp [momentsNeedCouplers]
  | cons m ms ih =>
    obtain ⟨ops⟩ := m
    rw [List.cons_append, momentsNeedCouplers, ih, momentsNeedCouplers, Bool.or_assoc]

namespace Circuit

/-- Moments one after the other compile if the first ones and the others do, and to their
scripts one after the other. -/
theorem toScript_append_eq_ok_iff {ms ns : List Moment} (hms : ms ≠ []) (hns : ns ≠ [])
    (s : String) :
    (Circuit.mk (ms ++ ns)).toScript t = .ok s ↔ ∃ u v, (Circuit.mk ms).toScript t = .ok u ∧
      (Circuit.mk ns).toScript t = .ok v ∧ s = u ++ v := by
  have hneeds : (t.couplers.isSome ∨ (Circuit.mk (ms ++ ns)).needsCouplers t.policy = false) ↔
      (t.couplers.isSome ∨ (Circuit.mk ms).needsCouplers t.policy = false) ∧
        (t.couplers.isSome ∨ (Circuit.mk ns).needsCouplers t.policy = false) := by
    rw [needsCouplers, momentsNeedCouplers_append, Bool.or_eq_false_iff]
    exact or_and_left
  simp only [toScript_eq_ok_iff, hneeds, momentsLines_append_eq_ok_iff]
  constructor
  · rintro ⟨hagents, ⟨hm, hn⟩, _, ⟨xs, ys, hxs, hys, rfl⟩, rfl⟩
    exact ⟨_, _, ⟨hagents, hm, xs, hxs, rfl⟩, ⟨hagents, hn, ys, hys, rfl⟩,
      scriptText_append (ne_nil_of_momentsLines hms hxs) (ne_nil_of_momentsLines hns hys)⟩
  · rintro ⟨_, _, ⟨hagents, hm, xs, hxs, rfl⟩, ⟨-, hn, ys, hys, rfl⟩, rfl⟩
    exact ⟨hagents, ⟨hm, hn⟩, _, ⟨xs, ys, hxs, hys, rfl⟩,
      (scriptText_append (ne_nil_of_momentsLines hms hxs) (ne_nil_of_momentsLines hns hys)).symm⟩

/-- A script is the scripts of the moments, each compiled by itself. -/
theorem toScript_eq_ok_iff_moments {ms : List Moment} (hms : ms ≠ []) (s : String) :
    (Circuit.mk ms).toScript t = .ok s ↔
      ∃ us, List.Forall₂ (fun m u => (Circuit.mk [m]).toScript t = .ok u) ms us ∧
        s = String.join us := by
  induction ms generalizing s with
  | nil => exact absurd rfl hms
  | cons m ms ih =>
    by_cases hrest : ms = []
    · subst hrest
      simp [List.forall₂_cons_left_iff, String.join_cons]
    · have hsplit : m :: ms = [m] ++ ms := rfl
      simp only [hsplit, toScript_append_eq_ok_iff (List.cons_ne_nil m []) hrest, ih hrest]
      simp only [← hsplit, List.forall₂_cons_left_iff]
      constructor
      · rintro ⟨u, _, hu, ⟨us, hus, rfl⟩, rfl⟩
        exact ⟨u :: us, ⟨u, us, hu, hus, rfl⟩, String.join_cons.symm⟩
      · rintro ⟨_, ⟨u, us, hu, hus, rfl⟩, rfl⟩
        exact ⟨u, _, hu, ⟨us, hus, rfl⟩, String.join_cons⟩

/-- The circuit of one moment, in which this circuit is repeated. -/
def repeated (c : Circuit) (n : UInt32) : Circuit := ⟨[⟨[.ofCircuit c n]⟩]⟩

/-- The circuit nested so often, each time alone in a moment and with these repetitions, the
outermost first. -/
def nestedIn (c : Circuit) : List UInt32 → Circuit
  | [] => c
  | n :: ns => (c.nestedIn ns).repeated n

theorem mem_qubits_repeated (c : Circuit) (n : UInt32) (q : Qubit) :
    q ∈ (c.repeated n).qubits ↔ q ∈ c.qubits := by
  simp [repeated, Circuit.mem_qubits (c := ⟨_⟩), Operation.ofCircuit, Operation.qubits]

theorem mem_qubits_nestedIn (c : Circuit) (ns : List UInt32) (q : Qubit) :
    q ∈ (c.nestedIn ns).qubits ↔ q ∈ c.qubits := by
  induction ns with
  | nil => rfl
  | cons n ns ih => rw [nestedIn, mem_qubits_repeated, ih]

theorem moments_nestedIn_ne_nil {c : Circuit} (hc : c.moments ≠ []) (ns : List UInt32) :
    (c.nestedIn ns).moments ≠ [] := by
  cases ns with
  | nil => exact hc
  | cons n ns => exact List.cons_ne_nil _ _

theorem needsCouplers_repeated (c : Circuit) (n : UInt32) (p : IgnorePolicy) :
    (c.repeated n).needsCouplers p = c.needsCouplers p := by
  obtain ⟨ms⟩ := c
  simp [needsCouplers, repeated, Operation.ofCircuit, momentsNeedCouplers, operationsNeedCouplers,
    operationNeedsCouplers]

/-- The lines of a circuit alone in a moment are its own, so many times over: its last barrier
closes the moment. -/
theorem momentsLines_repeated {c : Circuit} (hc : c.moments ≠ [])
    (hlabels : ∀ q ∈ c.qubits, t.Labels q) {n : UInt32} (hn : n ≠ 0) :
    momentsLines t (c.repeated n).moments =
      (momentsLines t c.moments).map (repeatLines n.toNat) := by
  obtain ⟨key, hkey⟩ := (t.smallestLabel_isOk_iff c.qubits).mpr hlabels
  have hzero : n.toNat ≠ 0 := mt (repetitions_eq_zero_iff n).mp hn
  have hpart : operationPart t (.ofCircuit c n) =
      .ok (.nested key n.toNat (momentsLines t c.moments)) :=
    (operationPart_subcircuit_eq_ok_iff t c n c.qubits _).mpr ⟨key, hkey, rfl⟩
  have hnested : nestedLines [.nested key n.toNat (momentsLines t c.moments)] =
      (momentsLines t c.moments).map (repeatLines n.toNat) := by
    cases momentsLines t c.moments <;>
      simp [nestedLines, Part.nested?, sortByKey, hzero, Except.map, bind, Except.bind, pure,
        Except.pure]
  have hwhole : momentsLines t (c.repeated n).moments =
      t.partsLines [.nested key n.toNat (momentsLines t c.moments)] >>= fun lines =>
        .ok (lines ++ []) := by
    simp only [repeated, momentsLines, operationParts, hpart]
    rfl
  rw [hwhole, Target.partsLines, hnested]
  cases hlines : momentsLines t c.moments with
  | error e => rfl
  | ok inner =>
    have hne : repeatLines n.toNat inner ≠ [] := by
      rw [repeatLines_eq]
      simp [hzero, ne_nil_of_momentsLines hc hlines]
    simp [Except.map, bind, Except.bind, pure, Except.pure, hne, entryLines, measureLines,
      Part.entry?, Part.labels, sortByKey]

/-- The script of a circuit alone in a moment is its own, so many times over, or the same error. -/
theorem toScript_repeated {c : Circuit} (hc : c.moments ≠ [])
    (hlabels : ∀ q ∈ c.qubits, t.Labels q) {n : UInt32} (hn : n ≠ 0) :
    (c.repeated n).toScript t = (c.toScript t).map (repeatText n.toNat) := by
  unfold toScript lines
  rw [needsCouplers_repeated, momentsLines_repeated hc hlabels hn]
  split_ifs
  · rfl
  · rfl
  · cases hlines : momentsLines t c.moments with
    | error e => rfl
    | ok inner =>
      have htext := scriptText_repeatLines (ne_nil_of_momentsLines hc hlines)
        (mt (repetitions_eq_zero_iff n).mp hn)
      exact congrArg Except.ok htext

/-- Repetitions of circuits in each other multiply. -/
theorem toScript_nestedIn {c : Circuit} (hc : c.moments ≠ [])
    (hlabels : ∀ q ∈ c.qubits, t.Labels q) {ns : List UInt32} (hns : ∀ n ∈ ns, n ≠ 0) :
    (c.nestedIn ns).toScript t = (c.toScript t).map (repeatText (ns.map UInt32.toNat).prod) := by
  induction ns with
  | nil => cases hscript : c.toScript t <;> simp [nestedIn, hscript, Except.map, repeatText_one]
  | cons n ns ih =>
    obtain ⟨hn, hns⟩ := List.forall_mem_cons.mp hns
    have hknown : ∀ q ∈ (c.nestedIn ns).qubits, t.Labels q :=
      fun q hq => hlabels q ((c.mem_qubits_nestedIn ns q).mp hq)
    rw [nestedIn, toScript_repeated (moments_nestedIn_ne_nil hc ns) hknown hn, ih hns]
    cases c.toScript t <;> simp [Except.map, repeatText_mul]

/-- Two lists of moments, neither of them empty, compile one behind the other exactly if both
compile, and to their scripts one behind the other; so a script is the scripts of the moments, each
compiled by itself. A circuit with a moment, on labelled qubits, that is alone in a moment and
repeated at least once has its own script so many times over, and fails as the circuit itself does.
Where such circuits are nested in each other, to any depth, the repetitions multiply. -/
theorem toScript_append_and_nested (t : Target) :
    (∀ ms ns : List Moment, ms ≠ [] → ns ≠ [] → ∀ s,
      (Circuit.mk (ms ++ ns)).toScript t = .ok s ↔ ∃ u v, (Circuit.mk ms).toScript t = .ok u ∧
        (Circuit.mk ns).toScript t = .ok v ∧ s = u ++ v) ∧
    (∀ ms : List Moment, ms ≠ [] → ∀ s, (Circuit.mk ms).toScript t = .ok s ↔
      ∃ us, List.Forall₂ (fun m u => (Circuit.mk [m]).toScript t = .ok u) ms us ∧
        s = String.join us) ∧
    ∀ c : Circuit, c.moments ≠ [] → (∀ q ∈ c.qubits, t.Labels q) →
      (∀ n : UInt32, 1 ≤ n → (Circuit.mk [⟨[.ofCircuit c n]⟩]).toScript t =
        (c.toScript t).map fun s => String.join (List.replicate n.toNat s)) ∧
      ∀ ns : List UInt32, (∀ n ∈ ns, 1 ≤ n) → (c.nestedIn ns).toScript t =
        (c.toScript t).map fun s =>
          String.join (List.replicate (ns.map UInt32.toNat).prod s) := by
  have hne (n : UInt32) (hn : 1 ≤ n) : n ≠ 0 := by
    rintro rfl
    exact absurd hn (by decide)
  refine ⟨fun ms ns hms hns s => toScript_append_eq_ok_iff hms hns s,
    fun ms hms s => toScript_eq_ok_iff_moments hms s, fun c hc hlabels => ⟨fun n hn => ?_, ?_⟩⟩
  · exact toScript_repeated hc hlabels (hne n hn)
  · exact fun ns hns => toScript_nestedIn hc hlabels fun n hn => hne n (hns n hn)

/-- A gate on the joined pair and a nested circuit, then a measurement, and the two moments nested
twice in three repetitions. -/
theorem toScript_append_and_nested_pairLoop :
    let measured : Moment := ⟨[.act .measure [⟨1⟩]]⟩
    ∃ u v : String, besidePair.toScript .joinedPair = .ok u ∧
      (Circuit.mk [measured]).toScript .joinedPair = .ok v ∧
      (Circuit.mk (besidePair.moments ++ [measured])).toScript .joinedPair = .ok (u ++ v) ∧
      (∃ us, List.Forall₂ (fun m u => (Circuit.mk [m]).toScript .joinedPair = .ok u)
        (besidePair.moments ++ [measured]) us ∧ u ++ v = String.join us) ∧
      ((Circuit.mk (besidePair.moments ++ [measured])).nestedIn [3, 2]).toScript .joinedPair =
        .ok (String.join (List.replicate 6 (u ++ v))) ∧
      (Circuit.mk [⟨[.ofCircuit besidePair 2]⟩]).toScript .joinedPair =
        .ok (String.join (List.replicate 2 u)) := by
  intro measured
  obtain ⟨hpieces, hmoments, hnested⟩ := toScript_append_and_nested .joinedPair
  have hlabels : ∀ q, Target.joinedPair.Labels q := fun q => ⟨q.text, rfl⟩
  have hsome : ((Circuit.mk (besidePair.moments ++ [measured])).toScript
      .joinedPair).toOption.isSome = true := by decide +kernel
  obtain ⟨s, hs⟩ := Option.isSome_iff_exists.mp hsome
  have hboth := (toOption_eq_some_iff _ _).mp hs
  obtain ⟨u, v, hu, hv, rfl⟩ :=
    (hpieces besidePair.moments [measured] (by decide) (by decide) s).mp hboth
  have htwice := (hnested besidePair (by decide) fun q _ => hlabels q).1 2 (by decide)
  have hsix := (hnested ⟨besidePair.moments ++ [measured]⟩ (by decide) fun q _ => hlabels q).2 [3, 2]
    (by simp)
  refine ⟨u, v, hu, hv, hboth, (hmoments _ (by decide) _).mp hboth, ?_, ?_⟩
  · rw [hsix, hboth]
    rfl
  · rw [htwice, show besidePair.toScript .joinedPair = .ok u from hu]
    rfl

end Circuit
end PulseScript
