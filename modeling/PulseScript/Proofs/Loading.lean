import Mathlib
import PulseScript.Proofs.ValidDevices
import PulseScript.Stored.Device

/-!
# Descriptions loaded with overrides

A description is checked twice when it is loaded: as its file has it, and again with the overrides
in place. An override can therefore take away what was in order, but it cannot make good what the
file lacks or has wrong: the first check has refused it by then. The parts that no override reaches
are the same in both, so a description that passed the first check can only fail the second for the
lists that it was given. None of this depends on how the texts of files are read.
-/
namespace PulseScript

theorem blankWords_ne_nil_iff (s : String) :
    blankWords s ≠ [] ↔ ∃ c ∈ s.toList, isBlank c = false := by
  rw [blankWords, Ne, List.map_eq_nil_iff, splitRuns_eq_nil_iff]
  simp

/-- The words of a text can be the line starts of a filter unless the word `B` is one of them. -/
theorem LineFilter.starts_blankWords_iff (s : String) :
    (∀ start ∈ blankWords s, start ≠ "" ∧ start ≠ "B" ∧
      ∀ c cs, start.toList = 'B' :: c :: cs → isBlank c = false) ↔ "B" ∉ blankWords s := by
  refine ⟨fun h hb => (h "B" hb).2.1 rfl, fun h start hstart => ?_⟩
  obtain ⟨run, hrun, rfl⟩ := List.mem_map.mp hstart
  obtain ⟨hne, hblank⟩ := of_mem_splitRuns hrun
  refine ⟨fun he => hne (by simpa using he), fun he => h (he ▸ hstart), fun c cs he => ?_⟩
  exact hblank c (by simp_all)

namespace Device

/-- Each text that is given takes the place of its list, by its words. -/
theorem override_eq (d : Device) (o : Overrides) :
    d.override o =
      { d with
        agents := (o.agents.map blankWords).getD d.agents
        ignoredStarts := (o.ignoredStarts.map blankWords).getD d.ignoredStarts } := by
  obtain ⟨agents, starts⟩ := o
  cases agents <;> cases starts <;> rfl

/-- Lists that are overridden keep a description in order exactly if some agent is given and no line
start is the word `B`. -/
theorem Consistent.override_iff {d : Device} (h : d.Consistent) (o : Overrides) :
    (d.override o).Consistent ↔
      (∀ text, o.agents = some text → ∃ c ∈ text.toList, isBlank c = false) ∧
      ∀ text, o.ignoredStarts = some text → "B" ∉ blankWords text := by
  have hagents : (d.override o).agents ≠ [] ↔
      ∀ text, o.agents = some text → ∃ c ∈ text.toList, isBlank c = false := by
    rw [override_eq]
    cases o.agents with
    | none => simpa using h.agents
    | some text => simpa using blankWords_ne_nil_iff text
  have hstarts : (∀ start ∈ (d.override o).ignoredStarts, start ≠ "" ∧ start ≠ "B" ∧
      ∀ c cs, start.toList = 'B' :: c :: cs → isBlank c = false) ↔
      ∀ text, o.ignoredStarts = some text → "B" ∉ blankWords text := by
    rw [override_eq]
    cases o.ignoredStarts with
    | none => simpa using h.starts
    | some text => simpa using LineFilter.starts_blankWords_iff text
  rw [← hagents, ← hstarts]
  refine ⟨fun hd => ⟨hd.agents, hd.starts⟩, fun ⟨ha, hs⟩ => ⟨ha, ?_, ?_, hs⟩⟩
  · simpa only [override_eq] using h.indexes
  · simpa only [override_eq] using h.couplers

theorem eq_of_checked_eq_ok {d e : Device} (h : d.checked = .ok e) : e = d := by
  unfold checked at h
  split at h
  · cases h
  · exact (Except.ok.inj h).symm

variable {r : Readers} {name : String} {content : Option ByteArray}

namespace Readers

theorem ofFile_eq_checked {d : Device} (h : r.stored? name content = some d) :
    r.ofFile name content = d.checked := by
  obtain ⟨text, htext, hd⟩ := Option.bind_eq_some_iff.mp h
  simp only [ofFile, htext, hd, checkRead]

theorem load_of_fault {d : Device} (h : r.stored? name content = some d) {fault : DeviceFault}
    (hfault : d.fault? = some fault) (o : Overrides) :
    r.load name content o = .error (.invalid fault) := by
  have hchecked : d.checked = .error (.invalid fault) := by rw [checked, hfault]
  rw [load, ofFile_eq_checked h, hchecked]

theorem load_of_consistent {d : Device} (h : r.stored? name content = some d) (hd : d.Consistent)
    (o : Overrides) : r.load name content o = (d.override o).checked := by
  rw [load, ofFile_eq_checked h, d.checked_eq_ok_iff.mpr hd]

theorem load_eq_ok_iff {d : Device} (h : r.stored? name content = some d) (o : Overrides)
    (e : Device) :
    r.load name content o = .ok e ↔
      d.Consistent ∧ (d.override o).Consistent ∧ e = d.override o := by
  constructor
  · intro hload
    have hd : d.Consistent := by
      by_contra hnot
      obtain ⟨fault, hfault⟩ := Option.ne_none_iff_exists'.mp (mt d.fault?_eq_none_iff.mp hnot)
      rw [load_of_fault h hfault] at hload
      cases hload
    rw [load_of_consistent h hd] at hload
    obtain rfl : e = d.override o := eq_of_checked_eq_ok hload
    exact ⟨hd, (d.override o).checked_eq_ok_iff.mp hload, rfl⟩
  · rintro ⟨hd, hoverride, rfl⟩
    rw [load_of_consistent h hd]
    exact (d.override o).checked_eq_ok_iff.mpr hoverride

/-- The fault of the file is reported before any of the overrides. -/
theorem load_eq_invalid_iff {d : Device} (h : r.stored? name content = some d) (o : Overrides)
    (fault : DeviceFault) :
    r.load name content o = .error (.invalid fault) ↔
      d.fault? = some fault ∨ d.fault? = none ∧ (d.override o).fault? = some fault := by
  cases hd : d.fault? with
  | some first => simp [load_of_fault h hd]
  | none =>
    rw [load_of_consistent h (d.fault?_eq_none_iff.mp hd), checked]
    cases (d.override o).fault? <;> simp

/-- Loading checks no more than the overridden description exactly if the file is in order, or the
overridden description is not. -/
theorem load_checks_overridden_iff {d : Device} (h : r.stored? name content = some d)
    (o : Overrides) :
    (∀ e, r.load name content o = .ok e ↔ (d.override o).Consistent ∧ e = d.override o) ↔
      (d.Consistent ∨ ¬(d.override o).Consistent) := by
  constructor
  · intro hsame
    by_contra! hnot
    exact hnot.1 ((load_eq_ok_iff h o _).mp ((hsame _).mpr ⟨hnot.2, rfl⟩)).1
  · rintro (hd | hoverride) e
    · rw [load_eq_ok_iff h]
      exact and_iff_right hd
    · rw [load_eq_ok_iff h]
      exact iff_of_false (fun he => hoverride he.2.1) fun he => hoverride he.1

theorem exists_load_eq_ok_iff {d : Device} (h : r.stored? name content = some d)
    (hd : d.Consistent) (o : Overrides) :
    (∃ e, r.load name content o = .ok e) ↔
      (∀ text, o.agents = some text → ∃ c ∈ text.toList, isBlank c = false) ∧
      ∀ text, o.ignoredStarts = some text → "B" ∉ blankWords text := by
  rw [← hd.override_iff]
  constructor
  · rintro ⟨e, he⟩
    exact ((load_eq_ok_iff h o e).mp he).2.1
  · exact fun hoverride => ⟨_, (load_eq_ok_iff h o _).mpr ⟨hd, hoverride, rfl⟩⟩

end Readers

/-- With any readers, a file that holds a description is loaded exactly if the description passes its
check both as it is stored and with the overrides in place, and then the latter is what is loaded;
else the first fault that is found is reported, that of the file before any of the overrides. So
loading agrees with the check of the overridden description alone exactly if the file is in order, or
the overridden description is not. For a file in order, what decides is whether the agents that are
given have a word and the line starts that are given do not have the word `B`. -/
theorem load_checked_twice {d : Device} (h : r.stored? name content = some d) (o : Overrides) :
    (∀ e, r.load name content o = .ok e ↔
      d.checked = .ok d ∧ (d.override o).checked = .ok (d.override o) ∧ e = d.override o) ∧
    (∀ fault, r.load name content o = .error (.invalid fault) ↔
      d.fault? = some fault ∨ d.fault? = none ∧ (d.override o).fault? = some fault) ∧
    ((∀ e, r.load name content o = .ok e ↔
        (d.override o).checked = .ok (d.override o) ∧ e = d.override o) ↔
      (d.checked = .ok d ∨ (d.override o).checked ≠ .ok (d.override o))) ∧
    (d.checked = .ok d → ((∃ e, r.load name content o = .ok e) ↔
      (∀ text, o.agents = some text → ∃ c ∈ text.toList, isBlank c = false) ∧
      ∀ text, o.ignoredStarts = some text → "B" ∉ blankWords text)) ∧
    d.override o = { d with
      agents := (o.agents.map blankWords).getD d.agents
      ignoredStarts := (o.ignoredStarts.map blankWords).getD d.ignoredStarts } := by
  simp only [checked_eq_ok_iff, Ne]
  exact ⟨Readers.load_eq_ok_iff h o, Readers.load_eq_invalid_iff h o,
    Readers.load_checks_overridden_iff h o, fun hd => Readers.exists_load_eq_ok_iff h hd o,
    d.override_eq o⟩

def oneQubit (agents : List String) : Device :=
  ⟨(∅ : Std.ExtTreeMap String UInt32).insert "Q00" 0, agents, .empty, [], []⟩

def oneQubitFile : ByteArray :=
  "\x7b\"qubits\":\x7b\"Q00\":0\x7d,\"blockable_agents\":[\"Q00\"]\x7d".toUTF8

theorem load_checked_twice_oneQubit :
    readers.stored? "d.json" (some oneQubitFile) = some (oneQubit ["Q00"]) ∧
    load "d.json" (some oneQubitFile) ⟨some " Q00  R01", none⟩ = .ok (oneQubit ["Q00", "R01"]) ∧
    load "d.json" (some oneQubitFile) ⟨some " ", none⟩ = .error (.invalid .noAgents) ∧
    ¬∃ e, load "d.json" (some oneQubitFile) ⟨none, some "I B"⟩ = .ok e := by
  have hstored : readers.stored? "d.json" (some oneQubitFile) = some (oneQubit ["Q00"]) := by
    decide +kernel
  have hchecked : (oneQubit ["Q00"]).checked = .ok (oneQubit ["Q00"]) := by decide +kernel
  obtain ⟨hok, -⟩ := load_checked_twice hstored ⟨some " Q00  R01", none⟩
  obtain ⟨-, hfault, -⟩ := load_checked_twice hstored ⟨some " ", none⟩
  obtain ⟨-, -, -, hloads, -⟩ := load_checked_twice hstored ⟨none, some "I B"⟩
  refine ⟨hstored, (hok _).mpr ⟨hchecked, by decide +kernel, by decide +kernel⟩,
    (hfault .noAgents).mpr (.inr ⟨by decide +kernel, by decide +kernel⟩), fun hload => ?_⟩
  exact ((hloads hchecked).mp hload).2 "I B" rfl (by decide +kernel)

/-- A file without agents is refused, although the overrides would supply them. -/
theorem load_bareFile :
    ∃ file : ByteArray, readers.stored? "d.json" (some file) = some (oneQubit []) ∧
      ((oneQubit []).override ⟨some "Q00", none⟩).checked = .ok (oneQubit ["Q00"]) ∧
      load "d.json" (some file) ⟨some "Q00", none⟩ = .error (.invalid .noAgents) :=
  ⟨"\x7b\"qubits\":\x7b\"Q00\":0\x7d\x7d".toUTF8, by decide +kernel, by decide +kernel,
    by decide +kernel⟩

end Device
end PulseScript
