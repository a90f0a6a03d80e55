import Mathlib
import PulseScript.Proofs.Concatenation
import PulseScript.Proofs.Rearranging

/-!
# The text of one moment

A moment without nested circuits is written as one passage for each operation that is neither
ignored nor an identity nor a measurement, in the order of the smallest labels that they touch,
then as one line that measures all measured labels, and a barrier. Operations of a moment have no
qubit in common, so no two passages have the same smallest label and no label is measured twice:
the order of the text is strict, and nothing in it is left open.
-/
namespace PulseScript

namespace Target

variable {t : Target}

structure IsLeastLabel (t : Target) (qs : List Qubit) (l : String) : Prop where
  mem : ∃ q ∈ qs, t.labelOf? q = some l
  le : ∀ q ∈ qs, ∀ k, t.labelOf? q = some k → l ≤ k

theorem minLabel_le_left (a b : String) : minLabel a b ≤ a := by
  unfold minLabel
  split_ifs with h
  · exact String.not_lt.mp (String.lt_asymm h)
  · exact String.le_refl a

theorem minLabel_le_right (a b : String) : minLabel a b ≤ b :=
  minLabel_comm a b ▸ minLabel_le_left b a

theorem isLeastLabel_singleton {q : Qubit} {l : String} (h : t.labelOf? q = some l) :
    t.IsLeastLabel [q] l := by
  refine ⟨⟨q, by simp, h⟩, fun p hp k hk => ?_⟩
  obtain rfl := List.mem_singleton.mp hp
  obtain rfl := Option.some.inj (h.symm.trans hk)
  exact String.le_refl l

theorem isLeastLabel_pair {p q : Qubit} {lp lq : String} (hp : t.labelOf? p = some lp)
    (hq : t.labelOf? q = some lq) : t.IsLeastLabel [p, q] (minLabel lp lq) := by
  constructor
  · rcases minLabel_mem lp lq with h | h
    · exact ⟨p, by simp, by rw [h, hp]⟩
    · exact ⟨q, by simp, by rw [h, hq]⟩
  · intro r hr k hk
    rcases List.mem_pair.mp hr with rfl | rfl
    · obtain rfl := Option.some.inj (hp.symm.trans hk)
      exact minLabel_le_left _ _
    · obtain rfl := Option.some.inj (hq.symm.trans hk)
      exact minLabel_le_right _ _

/-- An entry is sorted by the smallest label that its operation touches. -/
theorem Gives.isLeastLabel {a : Action} {qs : List Qubit} {key : String} {lines : List String}
    (h : t.Gives a qs (.entry key lines)) : t.IsLeastLabel qs key := by
  cases h with
  | decoupling _ hl _ => exact isLeastLabel_singleton hl
  | pulse _ _ _ hl => exact isLeastLabel_singleton hl
  | coupled _ hp hq _ _ => exact isLeastLabel_pair hp hq
  | idle _ hl => exact isLeastLabel_singleton hl

end Target

structure Passage where
  operation : Operation
  key : String
  lines : List String

/-- The passage has the lines that its operation is translated to, one instruction or a whole
block, and its key is the smallest label that the operation touches. -/
structure Target.Renders (t : Target) (e : Passage) : Prop where
  lines : ∃ a qs, e.operation = .act a qs ∧ t.Gives a qs (.entry e.key e.lines)
  key : t.IsLeastLabel e.operation.qubits e.key

structure Target.Shape (t : Target) (ops : List Operation) (passages : List Passage)
    (labels : List String) : Prop where
  /-- There is one passage for each operation that is not ignored, no identity and no
  measurement. -/
  operations : (passages.map (·.operation)).Perm (ops.filter t.isEntry)
  renders : ∀ e ∈ passages, t.Renders e
  increasing : passages.Pairwise fun e f => e.key < f.key
  /-- The labels are those of all measured qubits, one for each of them. -/
  measured : ∃ qs, qs.Perm (ops.flatMap Operation.measured) ∧
    List.Forall₂ (fun q l => t.labelOf? q = some l) qs labels
  sorted : labels.Pairwise (· < ·)

def Target.shapeLines (t : Target) (passages : List Passage) (labels : List String) :
    List String :=
  passages.flatMap (·.lines) ++
    (if labels = [] then [] else [Mnemonic.measure.text ++ " " ++ " ".intercalate labels]) ++
    [t.barrier]

section Moment

variable {t : Target} {ops : List Operation} {parts : List Part}

/-- The entries of actions are passages for those of them that are written as entries. -/
theorem Target.exists_passages (hflat : ∀ op ∈ ops, ∃ a qs, op = .act a qs)
    (hparts : List.Forall₂ (fun op part => operationPart t op = .ok part) ops parts) :
    ∃ es : List Passage, es.map (·.operation) = ops.filter t.isEntry ∧
      es.map (fun e => (e.key, e.lines)) = parts.filterMap Part.entry? ∧ ∀ e ∈ es, t.Renders e := by
  induction hparts with
  | nil => exact ⟨[], rfl, rfl, by simp⟩
  | @cons op p ops parts hp _ ih =>
    obtain ⟨⟨a, qs, rfl⟩, hrest⟩ := List.forall_mem_cons.mp hflat
    obtain ⟨es, hops, hentries, hrenders⟩ := ih hrest
    have hgives := (t.actionPart_eq_ok_iff a qs p).mp hp
    rcases hgives.isEntry_cases with ⟨hi, hnone⟩ | ⟨hi, key, lines, rfl⟩
    · exact ⟨es, by simp [hops, hi], by simp [hentries, hnone], hrenders⟩
    · have hfirst : t.Renders ⟨.act a qs, key, lines⟩ := ⟨⟨a, qs, rfl, hgives⟩, hgives.isLeastLabel⟩
      refine ⟨⟨.act a qs, key, lines⟩ :: es, by simp [hops, hi], ?_,
        List.forall_mem_cons.mpr ⟨hfirst, hrenders⟩⟩
      simp [hentries, Part.entry?]

/-- Passages in the order of their keys stand in strict order, if their operations have no qubit
in common and the labels tell the qubits apart. -/
theorem Target.increasing_of_sorted {es : List Passage}
    (hsorted : es.Pairwise fun e f => e.key ≤ f.key)
    (hapart : es.Pairwise fun e f => e.operation.Apart f.operation)
    (hrenders : ∀ e ∈ es, t.Renders e) {qs : List Qubit}
    (hinj : ∀ p ∈ qs, ∀ q ∈ qs, ∀ l, t.labelOf? p = some l → t.labelOf? q = some l → p = q)
    (hqs : ∀ e ∈ es, ∀ q ∈ e.operation.qubits, q ∈ qs) :
    es.Pairwise fun e f => e.key < f.key := by
  refine (hsorted.and hapart).imp_of_mem fun {e f} he hf h => ?_
  refine lt_of_le_of_ne h.1 fun hkey => ?_
  obtain ⟨p, hp, hlp⟩ := (hrenders e he).key.mem
  obtain ⟨q, hq, hlq⟩ := (hrenders f hf).key.mem
  obtain rfl := hinj p (hqs e he p hp) q (hqs f hf q hq) e.key hlp (hkey ▸ hlq)
  exact h.2 hp hq

/-- The entries of a moment, put in order. -/
theorem Target.exists_sorted_passages (hflat : ∀ op ∈ ops, ∃ a qs, op = .act a qs)
    (hapart : ops.Pairwise Operation.Apart) {qs : List Qubit}
    (hinj : ∀ p ∈ qs, ∀ q ∈ qs, ∀ l, t.labelOf? p = some l → t.labelOf? q = some l → p = q)
    (hqs : ∀ op ∈ ops, ∀ q ∈ op.qubits, q ∈ qs)
    (hparts : List.Forall₂ (fun op part => operationPart t op = .ok part) ops parts) :
    ∃ es : List Passage, (es.map (·.operation)).Perm (ops.filter t.isEntry) ∧
      (∀ e ∈ es, t.Renders e) ∧ (es.Pairwise fun e f => e.key < f.key) ∧
      entryLines parts = es.flatMap (·.lines) := by
  obtain ⟨es, hops, hentries, hrenders⟩ := exists_passages hflat hparts
  have hperm := List.mergeSort_perm es fun a b => decide (a.key ≤ b.key)
  have hsorted : (es.mergeSort fun a b => decide (a.key ≤ b.key)).map (fun e => (e.key, e.lines)) =
      sortByKey (parts.filterMap Part.entry?) := by
    rw [← hentries, sortByKey]
    exact List.map_mergeSort fun _ _ _ _ => rfl
  generalize es.mergeSort (fun a b => decide (a.key ≤ b.key)) = sorted at hperm hsorted
  have hkept : (sorted.map (·.operation)).Perm (ops.filter t.isEntry) := hops ▸ hperm.map _
  have hmem : ∀ e ∈ sorted, e.operation ∈ ops := fun e he =>
    List.mem_of_mem_filter (hkept.mem_iff.mp (List.mem_map_of_mem he))
  have hrenders' : ∀ e ∈ sorted, t.Renders e := fun e he => hrenders e (hperm.mem_iff.mp he)
  have hkeys : sorted.Pairwise fun e f => e.key ≤ f.key := by
    have hpairs := pairwise_sortByKey (parts.filterMap Part.entry?)
    rwa [← hsorted, List.pairwise_map] at hpairs
  have hdisjoint : sorted.Pairwise fun e f => e.operation.Apart f.operation :=
    List.pairwise_map.mp ((hkept.pairwise_iff fun h => h.symm).mpr (hapart.filter _))
  refine ⟨sorted, hkept, hrenders', ?_, ?_⟩
  · exact increasing_of_sorted hkeys hdisjoint hrenders' hinj fun e he => hqs _ (hmem e he)
  · rw [entryLines, ← hsorted, List.flatMap_map]

/-- The labels to measure, put in order. -/
theorem Target.exists_sorted_labels {measured : List Qubit} (hnodup : measured.Nodup)
    (hinj : ∀ p ∈ measured, ∀ q ∈ measured, ∀ l,
      t.labelOf? p = some l → t.labelOf? q = some l → p = q)
    (hlabels : List.Forall₂ (fun q l => t.labelOf? q = some l) measured
      (parts.flatMap Part.labels)) :
    ∃ labels, (∃ qs, qs.Perm measured ∧
        List.Forall₂ (fun q l => t.labelOf? q = some l) qs labels) ∧
      labels.Pairwise (· < ·) ∧
      measureLines parts =
        if labels = [] then [] else [Mnemonic.measure.text ++ " " ++ " ".intercalate labels] := by
  have hperm := t.byLabel_perm measured
  have hread : ∀ q ∈ measured, t.labelOf? q = some (t.labelText q) := by
    intro q hq
    obtain ⟨l, -, hl⟩ := forall₂_right_of_mem hlabels hq
    rw [labelText_eq hl, hl]
  have hsort : (measured.map t.labelText).mergeSort = (t.byLabel measured).map t.labelText :=
    (t.map_byLabel measured).symm
  have hdistinct : ((t.byLabel measured).map t.labelText).Nodup := by
    refine (hperm.nodup_iff.mpr hnodup).map_on fun p hp q hq hpq => ?_
    have hp := hperm.mem_iff.mp hp
    have hq := hperm.mem_iff.mp hq
    exact hinj p hp q hq _ (hread p hp) (hpq ▸ hread q hq)
  have hsorted : ((t.byLabel measured).map t.labelText).Pairwise (· ≤ ·) :=
    hsort ▸ List.sortedLE_mergeSort.pairwise
  refine ⟨(t.byLabel measured).map t.labelText, ⟨t.byLabel measured, hperm, ?_⟩, ?_, ?_⟩
  · rw [List.forall₂_map_right_iff, List.forall₂_same]
    exact fun q hq => hread q (hperm.mem_iff.mp hq)
  · exact (hsorted.and hdistinct).imp fun h => lt_of_le_of_ne h.1 h.2
  · rw [measureLines, eq_map_labelText hlabels, hsort]
    cases (t.byLabel measured).map t.labelText <;> simp

end Moment

/-- Nothing is measured exactly if there is no measurement. -/
theorem flatMap_measured_eq_nil_iff {ops : List Operation} (hops : ∀ op ∈ ops, op.WellFormed) :
    ops.flatMap Operation.measured = [] ↔ ∀ qs, .act .measure qs ∉ ops := by
  rw [List.flatMap_eq_nil_iff]
  constructor
  · intro h qs hqs
    cases hops _ hqs with
    | act htakes => exact htakes.1 (h _ hqs)
  · intro h op hop
    by_contra hne
    exact h op.measured (Operation.act_measured hne ▸ hop)

/-- The script of a moment without nested circuits has one passage for each operation that is not
ignored, no identity and no measurement, in strict order of the smallest labels that they touch;
then, if something is measured, one line with all measured labels, each once and in order; and
then one barrier. -/
theorem Circuit.toScript_moment (t : Target) (m : Moment) (hm : m.Built)
    (hflat : ∀ op ∈ m.operations, ∃ a qs, op = .act a qs)
    (hinj : ∀ p ∈ m.qubits, ∀ q ∈ m.qubits, ∀ l,
      t.labelOf? p = some l → t.labelOf? q = some l → p = q) {s : String}
    (h : (Circuit.mk [m]).toScript t = .ok s) :
    ∃ passages labels, t.Shape m.operations passages labels ∧
      (labels = [] ↔ ∀ qs, .act .measure qs ∉ m.operations) ∧
      s = String.join ((t.shapeLines passages labels).map (· ++ "\n")) := by
  obtain ⟨-, -, lines, hlines, rfl⟩ := (toScript_eq_ok_iff t _ s).mp h
  obtain ⟨parts, hparts, front, hfront, rest, hrest, rfl⟩ :=
    (momentsLines_cons_eq_ok_iff t m [] lines).mp hlines
  obtain rfl : [] = rest := by simpa [momentsLines] using hrest
  obtain rfl : entryLines parts ++ measureLines parts ++ [t.barrier] = front :=
    Except.ok.inj ((partsLines_of_flat hflat hparts).symm.trans hfront)
  have hqs : ∀ op ∈ m.operations, ∀ q ∈ op.qubits, q ∈ m.qubits :=
    fun op hop q hq => Moment.mem_qubits.mpr ⟨op, hop, hq⟩
  have hmeasured : ∀ q ∈ m.operations.flatMap Operation.measured, q ∈ m.qubits := by
    intro q hq
    obtain ⟨op, hop, hq⟩ := List.mem_flatMap.mp hq
    exact hqs op hop q (op.measured_subset hq)
  obtain ⟨hapart, hwell⟩ := hm.wellFormed
  obtain ⟨passages, hops, hrenders, hincreasing, hentries⟩ :=
    Target.exists_sorted_passages hflat hapart hinj hqs hparts
  obtain ⟨labels, hread, hsorted, hline⟩ := Target.exists_sorted_labels
    (nodup_measured hwell hapart) (fun p hp q hq => hinj p (hmeasured p hp) q (hmeasured q hq))
    (labels_of_parts hparts)
  refine ⟨passages, labels, ⟨hops, hrenders, hincreasing, hread, hsorted⟩, ?_, ?_⟩
  · obtain ⟨qs, hperm, hlabels⟩ := hread
    rw [← flatMap_measured_eq_nil_iff hwell, ← List.length_eq_zero_iff, ← hlabels.length_eq,
      hperm.length_eq, List.length_eq_zero_iff]
  · rw [hentries, hline, List.append_nil]
    exact scriptText_eq_join (by simp)

def Moment.mixed : Moment :=
  ⟨[.act .measure [⟨9⟩, ⟨3⟩], .x ⟨2⟩, .ofDelay ⟨10⟩ 40, .onCoupler [⟨1⟩, ⟨0⟩],
    .single .identity ⟨4⟩, .ofMarker (.observable 0) [⟨5⟩], .act .measure [⟨7⟩]]⟩

theorem Moment.built_mixed : mixed.Built := by
  have hpairs : Operation.Built (.act .measure [⟨9⟩, ⟨3⟩]) :=
    .measure (show Operation.ofMeasure [⟨9⟩, ⟨3⟩] = .ok _ from rfl)
  have hx : Operation.Built (.x ⟨2⟩) :=
    .gate (show Operation.ofGate (.standard .x) [⟨2⟩] = .ok _ from rfl)
  have hcz : Operation.Built (.onCoupler [⟨1⟩, ⟨0⟩]) :=
    .gate (show Operation.ofGate (.standard .cz) [⟨1⟩, ⟨0⟩] = .ok _ from rfl)
  have hidentity : Operation.Built (.single .identity ⟨4⟩) :=
    .gate (show Operation.ofGate (.standard .identity) [⟨4⟩] = .ok _ from rfl)
  have hmarker : Operation.Built (.ofMarker (.observable 0) [⟨5⟩]) := .marker _ _
  have hlast : Operation.Built (.act .measure [⟨7⟩]) :=
    .measure (show Operation.ofMeasure [⟨7⟩] = .ok _ from rfl)
  have hfront := Moment.Built.push (.push (Moment.built_singleton hpairs) hx rfl)
    (.delay ⟨10⟩ 40) rfl
  exact .push (.push (.push (.push hfront hcz rfl) hidentity rfl) hmarker rfl) hlast rfl

/-- Labels are compared character by character, so the tenth qubit stands before the second. -/
theorem Circuit.toScript_moment_mixed :
    (Circuit.mk [.mixed]).toScript .joinedPair = .ok "CZ G\nI q10 40\nX q2\nM q3 q7 q9\nB A\n" ∧
      ∃ passages labels, Target.joinedPair.Shape Moment.mixed.operations passages labels ∧
        labels ≠ [] ∧ "CZ G\nI q10 40\nX q2\nM q3 q7 q9\nB A\n" =
          String.join ((Target.joinedPair.shapeLines passages labels).map (· ++ "\n")) := by
  have htext : ((Circuit.mk [.mixed]).toScript .joinedPair).toOption =
      some "CZ G\nI q10 40\nX q2\nM q3 q7 q9\nB A\n" := by cbv
  have hscript := (toOption_eq_some_iff _ _).mp htext
  have hflat : ∀ op ∈ Moment.mixed.operations, ∃ a qs, op = .act a qs := by
    simp [Moment.mixed, Operation.x, Operation.single, Operation.ofDelay, Operation.onCoupler,
      Operation.ofMarker]
  have htexts : ∀ p ∈ Moment.mixed.qubits, ∀ q ∈ Moment.mixed.qubits, p.text = q.text → p = q := by
    decide +kernel
  obtain ⟨passages, labels, hshape, hmeasured, hjoin⟩ := toScript_moment .joinedPair .mixed
    Moment.built_mixed hflat
    (fun p hp q hq l hpl hql => htexts p hp q hq (Option.some.inj (hpl.trans hql.symm))) hscript
  refine ⟨hscript, passages, labels, hshape, fun hnil => ?_, hjoin⟩
  exact hmeasured.mp hnil [⟨7⟩] (by simp [Moment.mixed])

end PulseScript
