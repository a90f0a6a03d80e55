import Mathlib
import PulseScript.Proofs.ProgramOrder
import PulseScript.Proofs.ValidDevices

/-!
# A device reads its own scripts

What a device compiles it also reads, one moment for each barrier, provided that its names can stand
in a line: labels and couplers as words, and the agents with at least one word before a comment. The
layout is the same in both directions, so every label that is written is found again, and couplers
are looked up where their names come from. The check of a description does not look into its names,
and neither does the compiler: a label with a space in it, a coupler whose name starts a comment or
a single agent without characters makes lines of another form.
-/
namespace PulseScript

/-- Without line starts a filter passes over nothing. -/
theorem isFiltered_of_noStarts (l : SourceLine) : isFiltered (some ⟨[]⟩) l = isFiltered none l := by
  simp [isFiltered, LineFilter.ignores]

theorem Program.ofText_of_noStarts (source : String) :
    ofText (some ⟨[]⟩) source = ofText none source := by
  have hstep : ∀ l ∈ sourceLines source, ∀ s,
      ReaderState.step (some ⟨[]⟩) s l = ReaderState.step none s l := by
    intro l _ s
    simp only [ReaderState.step, SourceLine.statement, isFiltered_of_noStarts]
  rw [ofText, ofText, ofLines, ofLines, foldlM_congr hstep]

theorem Circuit.ofScript_of_noStarts (w : Wiring) (source : String) :
    ofScript w (some ⟨[]⟩) source = ofScript w none source := by
  rw [ofScript, ofScript, Program.ofText_of_noStarts]

namespace Device

/-- The labels and the couplers of the description can stand as words in a line. The agents do not
break theirs, and something other than separators stands in it before the first hash. -/
structure Wordy (d : Device) : Prop where
  labels : ∀ label ∈ d.qubits, IsWord label
  couplers : ∀ name pair, d.couplers.pairFor? name = some pair → IsWord name
  agents : ∀ agent ∈ d.agents, '\n' ∉ agent.toList
  word : ∃ c ∈ (" ".intercalate d.agents).toList.takeWhile (· != '#'), isSeparator c = false

def target (d : Device) : Target := ⟨d.layout.labelOf?, d.agents, d.registry?, d.policy⟩

theorem registry_eq_couplers {d : Device} {r : CouplerRegistry} (h : d.registry? = some r) :
    r = d.couplers := by
  unfold registry? at h
  split at h
  · cases h
  · exact (Option.some.inj h).symm

section Words

variable {d : Device}

theorem Wordy.label (h : d.Wordy) (hd : d.Consistent) {q : Qubit} {label : String}
    (hlabel : d.layout.labelOf? q = some label) : IsWord label := by
  have hq := (hd.qubitOf?_iff label q).mp ((d.labelOf?_layout_iff q label).mp hlabel)
  exact h.labels label (Std.ExtTreeMap.mem_iff_isSome_getElem?.mpr (by simp [hq]))

theorem Wordy.namesAgents (h : d.Wordy) : d.target.NamesAgents := ⟨h.agents, h.word⟩

/-- The two directions of a consistent description with writable names go together. -/
theorem Wordy.follows (h : d.Wordy) (hd : d.Consistent) (hr : d.couplers.Reachable)
    (qs : List Qubit) : d.wiring.Follows d.target qs where
  labels q _ label hlabel := ⟨(d.labelOf?_layout_iff q label).mp hlabel, h.label hd hlabel⟩
  couplers := rfl
  reachable _ hregistry := registry_eq_couplers hregistry ▸ hr
  names _ hregistry name pair hpair :=
    h.couplers name pair (registry_eq_couplers hregistry ▸ hpair)

theorem Wordy.target (h : d.Wordy) (hd : d.Consistent) (hr : d.couplers.Reachable) :
    d.target.Wordy where
  toNamesAgents := h.namesAgents
  labels _ _ hlabel := h.label hd hlabel
  couplers r hregistry a b name hname := by
    obtain rfl : r = d.couplers := registry_eq_couplers hregistry
    rcases hr.indexed.pairFor?_of_nameFor? hname with hpair | hpair <;>
      exact h.couplers name _ hpair

end Words
end Device

/-- Groups are reread as they are, if all sequences that they convey read back. -/
theorem Conveys.rereadMoments?_eq_self {t : Target} {w : Wiring} {lines : List String}
    {xs : List Operation} {gs : List (List Operation)} (h : Conveys t w lines xs gs)
    (hback : ∀ x ∈ xs, x.readsBack = true) : rereadMoments? gs = some gs := by
  have hall : ∀ x ∈ gs.flatten, x.readsBack = true :=
    readsBack_of_tracks (fun q => (h.tracks q).symm) hback h.ne_nil_of_mem
  refine PulseScript.rereadMoments?_eq_self fun g hg x hx => ?_
  refine Operation.reread?_eq_self (hall x (List.mem_flatten.mpr ⟨g, hg, hx⟩)) ?_
  rintro d qs rfl
  exact (h.valid g hg d qs hx).1

/-- The lines that start like a barrier are the barrier lines. -/
theorem Target.count_barrier (t : Target) {lines : List (List Char)}
    (hlines : ∀ l ∈ lines, startsBarrier l = true → l = t.barrier.toList) :
    lines.count t.barrier.toList = lines.countP startsBarrier := by
  refine List.countP_congr fun l hl => ?_
  rw [beq_iff_eq]
  constructor
  · rintro rfl
    exact t.startsBarrier_barrier
  · exact hlines l hl

/-- A device whose description passes its check, with names that can stand in lines and without line
starts, reads every script that it compiles, if the durations of the decoupling sequences in it read
back. The circuit that it reads has one moment for each barrier line, which are all lines that start
like one, and on every qubit the operations of the compiled circuit. -/
theorem Device.parse_compile (d : Device) (c : Circuit) (s : String) (hchecked : d.checked = .ok d)
    (hregistry : d.couplers.Reachable) (hwords : d.Wordy) (hstarts : d.ignoredStarts = [])
    (hbuilt : c.Built) (hback : ∀ op ∈ d.target.played c.unrolled, op.readsBack = true)
    (hs : d.compile c = .ok s) :
    ∃ e, d.parse s = .ok e ∧
      e.numMoments = (splitLines s.toList).count d.target.barrier.toList ∧
      (∀ l ∈ splitLines s.toList, startsBarrier l = true → l = d.target.barrier.toList) ∧
      ∀ q, track q e.operations = track q (d.target.played c.unrolled) := by
  have hd : d.Consistent := d.checked_eq_ok_iff.mp hchecked
  have htarget : d.target.Wordy := hwords.target hd hregistry
  have hscript : c.toScript d.target = .ok s := hs
  obtain ⟨lines, gs, ⟨hgs, hlength⟩, hread⟩ :=
    hbuilt.exists_conveys_barriers (hwords.follows hd hregistry c.qubits) hwords.namesAgents hscript
  rw [hgs.rereadMoments?_eq_self hback, Option.map_some, toOption_eq_some_iff] at hread
  obtain ⟨hcount, heach, -⟩ := htarget.script_barriers hscript
  refine ⟨⟨gs.map Moment.mk⟩, ?_, ?_, heach, fun q => ?_⟩
  · rw [hd.parse_eq, hstarts, Circuit.ofScript_of_noStarts, hread]
  · rw [d.target.count_barrier heach, hcount, ← hlength]
    exact List.length_map _
  · rw [Circuit.operations_ofGroups, hgs.tracks q]

/-- Two qubits with a coupler between them, whose names are given. -/
def Device.joined (label coupler agent : String) : Device :=
  ⟨((∅ : Std.ExtTreeMap String UInt32).insert "a" 0).insert label 1, [agent],
    CouplerRegistry.empty.insert coupler "a" label, [], []⟩

theorem Device.reachable_joined (label coupler agent : String) :
    (joined label coupler agent).couplers.Reachable :=
  .insert .empty coupler "a" label

theorem Device.checked_joined : (joined "b" "G" "R").checked = .ok (joined "b" "G" "R") := by
  decide +kernel

theorem Device.wordy_joined : (joined "b" "G" "R").Wordy := by
  constructor
  · intro label hlabel
    rw [joined, Std.ExtTreeMap.mem_insert, Std.ExtTreeMap.mem_insert] at hlabel
    rcases hlabel with hb | ha | hnone
    · simp [← Std.LawfulEqCmp.eq_of_compare hb, IsWord]
    · simp [← Std.LawfulEqCmp.eq_of_compare ha, IsWord]
    · exact absurd hnone Std.ExtTreeMap.not_mem_empty
  · intro name pair hpair
    have hname : "G" = name := by
      by_contra hne
      rw [joined, CouplerRegistry.pairFor?_insert, if_neg hne] at hpair
      exact absurd hpair (by simp [CouplerRegistry.pairFor?, CouplerRegistry.empty])
    simp [← hname, IsWord]
  · intro agent hagent
    obtain rfl : agent = "R" := by simpa [joined] using hagent
    decide
  · exact ⟨'R', by decide, by decide⟩

theorem Device.parse_compile_joined :
    ∃ s e, (joined "b" "G" "R").compile .pairLoop = .ok s ∧
      (joined "b" "G" "R").parse s = .ok e ∧
      e.numMoments = (splitLines s.toList).count "B R".toList := by
  have hsome : ((joined "b" "G" "R").compile .pairLoop).toOption.isSome = true := by decide +kernel
  have hback : ((joined "b" "G" "R").target.played Circuit.pairLoop.unrolled).all
      Operation.readsBack = true := by decide +kernel
  obtain ⟨s, hs⟩ := Option.isSome_iff_exists.mp hsome
  have hscript := (toOption_eq_some_iff _ _).mp hs
  obtain ⟨e, he, hmoments, -⟩ := parse_compile _ .pairLoop s checked_joined
    (reachable_joined _ _ _) wordy_joined rfl Circuit.built_pairLoop (List.all_eq_true.mp hback) hscript
  exact ⟨s, e, hscript, he, hmoments⟩

def Circuit.pairStep : Circuit := ⟨[⟨[.onCoupler [⟨0⟩, ⟨1⟩]]⟩, ⟨[.x ⟨1⟩]⟩]⟩

theorem Circuit.built_pairStep : pairStep.Built := by
  have hcz : Operation.Built (.onCoupler [⟨0⟩, ⟨1⟩]) :=
    .gate (show Operation.ofGate (.standard .cz) [⟨0⟩, ⟨1⟩] = .ok _ from rfl)
  have hx : Operation.Built (.x ⟨1⟩) :=
    .gate (show Operation.ofGate (.standard .x) [⟨1⟩] = .ok _ from rfl)
  simpa [Circuit.Built, pairStep] using ⟨Moment.built_singleton hcz, Moment.built_singleton hx⟩

/-- The description passes its check, but the script of the pair is refused. -/
def Device.RefusesOwn (d : Device) : Prop :=
  d.checked = .ok d ∧ d.couplers.Reachable ∧ d.ignoredStarts = [] ∧
    ∃ s, d.compile .pairStep = .ok s ∧ ¬∃ e, d.parse s = .ok e

theorem Device.refusesOwn_of_toOption {d : Device} (hchecked : d.checked = .ok d)
    (hregistry : d.couplers.Reachable) (hstarts : d.ignoredStarts = [])
    (h : ((d.compile .pairStep).toOption.map fun s => (d.parse s).toOption.isSome) = some false) :
    d.RefusesOwn := by
  obtain ⟨s, hs, hnone⟩ := Option.map_eq_some_iff.mp h
  refine ⟨hchecked, hregistry, hstarts, s, (toOption_eq_some_iff _ s).mp hs, ?_⟩
  rintro ⟨e, he⟩
  simp [he, Except.toOption] at hnone

/-- A label with a space, a coupler whose name is a comment, and an agent without characters all pass
the check, and each makes lines that cannot be read. -/
theorem Device.refusesOwn_joined :
    Circuit.pairStep.Built ∧ (joined "b 1" "G" "R").RefusesOwn ∧
      (joined "b" "#G" "R").RefusesOwn ∧ (joined "b" "G" "").RefusesOwn :=
  ⟨Circuit.built_pairStep,
    refusesOwn_of_toOption (by decide +kernel) (reachable_joined _ _ _) rfl (by decide +kernel),
    refusesOwn_of_toOption (by decide +kernel) (reachable_joined _ _ _) rfl (by decide +kernel),
    refusesOwn_of_toOption (by decide +kernel) (reachable_joined _ _ _) rfl (by decide +kernel)⟩

end PulseScript
