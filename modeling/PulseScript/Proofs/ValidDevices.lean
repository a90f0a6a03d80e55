import Mathlib
import PulseScript.Device
import PulseScript.Proofs.Calls
import PulseScript.Proofs.Causes
import PulseScript.Proofs.Layout
import PulseScript.Proofs.LineNumbers

/-!
# What a checked description is good for

The check of a description goes through its indexes, its couplers and its line starts one after the
other, and passes exactly if each of them is in order. No entry then takes the place of another in
the layout, so every label keeps its qubit. A coupler joins two labels of different qubits, so a
line that names it stands for a gate, and what can still go wrong there is only that the moment uses
one of the qubits already.
-/
namespace PulseScript

/-- A line start is that of a barrier exactly if it is empty or the word `B`, alone or with blank
space behind it. -/
theorem LineFilter.couldStartBarrier_eq_false_iff (start : String) :
    couldStartBarrier start = false ↔ start ≠ "" ∧ start ≠ "B" ∧
      ∀ c cs, start.toList = 'B' :: c :: cs → isBlank c = false := by
  have hempty : start ≠ "" ↔ start.toList ≠ [] := String.toList_eq_nil_iff.not.symm
  have hword : start ≠ "B" ↔ start.toList ≠ ['B'] := by
    rw [Ne, ← String.toList_inj]
    rfl
  rw [hempty, hword, couldStartBarrier]
  split
  · rename_i hnil
    simp [hnil]
  · rename_i cs hcs
    cases cs <;> simp [hcs]
  · rename_i hnil hb
    exact iff_of_true rfl ⟨hnil, hb [], fun c cs hcs => absurd hcs (hb _)⟩

theorem LineFilter.barrierStart?_eq_none_iff (starts : List String) :
    barrierStart? starts = none ↔ ∀ start ∈ starts, start ≠ "" ∧ start ≠ "B" ∧
      ∀ c cs, start.toList = 'B' :: c :: cs → isBlank c = false := by
  simp only [barrierStart?, List.find?_eq_none, Bool.not_eq_true, couldStartBarrier_eq_false_iff]

namespace Device

structure Consistent (d : Device) : Prop where
  agents : d.agents ≠ []
  indexes : ∀ (a b : String) (i : UInt32), d.qubits[a]? = some i → d.qubits[b]? = some i → a = b
  couplers : ∀ name a b, d.couplers.pairFor? name = some (a, b) →
    a ≠ b ∧ a ∈ d.qubits ∧ b ∈ d.qubits
  starts : ∀ start ∈ d.ignoredStarts, start ≠ "" ∧ start ≠ "B" ∧
    ∀ c cs, start.toList = 'B' :: c :: cs → isBlank c = false

/-- No index is found twice exactly if none is, and none has been seen before. -/
theorem sharedIndex?_eq_none_iff (seen : List UInt32) (entries : List (String × UInt32)) :
    sharedIndex? seen entries = none ↔
      (entries.map Prod.snd).Nodup ∧ ∀ e ∈ entries, e.2 ∉ seen := by
  induction entries generalizing seen with
  | nil => simp [sharedIndex?]
  | cons e rest ih =>
    obtain ⟨label, index⟩ := e
    rw [sharedIndex?]
    split
    · rename_i hseen
      simp [hseen]
    · rename_i hnew
      rw [ih]
      simp only [List.map_cons, List.nodup_cons, List.mem_map, List.mem_cons, forall_eq_or_imp]
      grind

theorem nodup_toList (d : Device) : d.qubits.toList.Nodup := by
  refine d.qubits.distinct_keys_toList.imp fun {e f} hne he => ?_
  rw [he] at hne
  exact hne Std.ReflCmp.compare_self

theorem nodup_indexes_iff (d : Device) : (d.qubits.toList.map Prod.snd).Nodup ↔
    ∀ (a b : String) (i : UInt32), d.qubits[a]? = some i → d.qubits[b]? = some i → a = b := by
  have hmem (a : String) (i : UInt32) : (a, i) ∈ d.qubits.toList ↔ d.qubits[a]? = some i :=
    Std.ExtTreeMap.mem_toList_iff_getElem?_eq_some
  constructor
  · intro h a b i ha hb
    have hsame := List.inj_on_of_nodup_map h ((hmem a i).mpr ha) ((hmem b i).mpr hb) rfl
    exact congrArg Prod.fst hsame
  · intro h
    refine d.nodup_toList.map_on fun (a, i) ha (b, j) hb hij => ?_
    obtain rfl : i = j := hij
    rw [h a b i ((hmem a i).mp ha) ((hmem b i).mp hb)]

theorem couplerFault?_eq_none_iff (d : Device) (name a b : String) :
    d.couplerFault? name a b = none ↔ a ≠ b ∧ a ∈ d.qubits ∧ b ∈ d.qubits := by
  rw [couplerFault?, ← Std.ExtTreeMap.contains_iff_mem, ← Std.ExtTreeMap.contains_iff_mem]
  split_ifs with hsame ha hb
  · simp [hsame]
  · simp_all
  · simp_all
  · simp_all

theorem findSome?_couplerFault?_eq_none_iff (d : Device) :
    d.couplers.toList.findSome? (fun c => d.couplerFault? c.1 c.2.1 c.2.2) = none ↔
      ∀ name a b, d.couplers.pairFor? name = some (a, b) →
        a ≠ b ∧ a ∈ d.qubits ∧ b ∈ d.qubits := by
  simp only [List.findSome?_eq_none_iff, couplerFault?_eq_none_iff, Prod.forall,
    CouplerRegistry.toList, CouplerRegistry.pairFor?,
    Std.ExtTreeMap.mem_toList_iff_getElem?_eq_some]

theorem fault?_eq_none_iff (d : Device) : d.fault? = none ↔ d.Consistent := by
  have hindexes : sharedIndex? [] d.qubits.toList = none ↔
      (d.qubits.toList.map Prod.snd).Nodup := by
    rw [sharedIndex?_eq_none_iff]
    simp
  rw [fault?]
  split
  · rename_i hnone
    exact iff_of_false (by simp) fun h => h.agents (List.isEmpty_iff.mp hnone)
  · rename_i hsome
    rw [Option.or_eq_none_iff, Option.or_eq_none_iff, Option.map_eq_none_iff, hindexes,
      nodup_indexes_iff, findSome?_couplerFault?_eq_none_iff, LineFilter.barrierStart?_eq_none_iff]
    constructor
    · rintro ⟨hi, hc, hs⟩
      exact ⟨fun h => hsome (List.isEmpty_iff.mpr h), hi, hc, hs⟩
    · exact fun h => ⟨h.indexes, h.couplers, h.starts⟩

theorem checked_eq_ok_iff (d : Device) : d.checked = .ok d ↔ d.Consistent := by
  rw [← fault?_eq_none_iff, checked]
  cases d.fault? <;> simp

def entries (d : Device) : List (Qubit × String) := d.qubits.toList.map fun e => (⟨e.2⟩, e.1)

theorem mem_entries_iff (d : Device) (q : Qubit) (label : String) :
    (q, label) ∈ d.entries ↔ d.qubits[label]? = some q.index := by
  obtain ⟨i⟩ := q
  rw [← Std.ExtTreeMap.mem_toList_iff_getElem?_eq_some, entries, List.mem_map]
  constructor
  · rintro ⟨⟨a, j⟩, ha, he⟩
    obtain ⟨rfl, rfl⟩ : j = i ∧ a = label := by simpa using he
    exact ha
  · exact fun hmem => ⟨(label, i), hmem, rfl⟩

theorem records_layout (d : Device) : d.layout.Records d.entries := .ofList d.entries

theorem labelOf?_layout_iff (d : Device) (q : Qubit) (label : String) :
    d.layout.labelOf? q = some label ↔ d.layout.qubitOf? label = some q :=
  d.records_layout.labelOf?_iff q label

namespace Consistent

variable {d : Device}

/-- No two entries share a qubit or a label. -/
theorem apart_entries (h : d.Consistent) :
    ∀ e ∈ d.entries, ∀ f ∈ d.entries, e.1 = f.1 ↔ e.2 = f.2 := by
  rintro ⟨⟨i⟩, a⟩ he ⟨⟨j⟩, b⟩ hf
  have ha : d.qubits[a]? = some i := (d.mem_entries_iff ⟨i⟩ a).mp he
  have hb : d.qubits[b]? = some j := (d.mem_entries_iff ⟨j⟩ b).mp hf
  constructor
  · intro hij
    obtain rfl : i = j := congrArg Qubit.index hij
    exact h.indexes a b i ha hb
  · intro hab
    obtain rfl : a = b := hab
    exact congrArg Qubit.mk (Option.some.inj (ha.symm.trans hb))

/-- Every label of the description has its qubit in the layout, and no other label has. -/
theorem qubitOf?_iff (h : d.Consistent) (label : String) (q : Qubit) :
    d.layout.qubitOf? label = some q ↔ d.qubits[label]? = some q.index := by
  rw [d.records_layout.qubit, LabelLayout.lasts_iff_mem h.apart_entries, mem_entries_iff]

/-- The layout has as many entries as the description has labels. -/
theorem size_layout (h : d.Consistent) : d.layout.size = d.qubits.size := by
  have hnodup : d.entries.Nodup := by
    refine d.nodup_toList.map fun (a, i) (b, j) he => ?_
    obtain ⟨rfl, rfl⟩ : i = j ∧ a = b := by simpa using he
    rfl
  have hperm : d.layout.toList.Perm d.entries := by
    refine (List.perm_ext_iff_of_nodup (LabelLayout.nodup_toList _) hnodup).mpr fun (q, label) => ?_
    rw [LabelLayout.mem_toList_iff, labelOf?_layout_iff, h.qubitOf?_iff, mem_entries_iff]
  calc d.layout.size = d.layout.toList.length := Std.ExtTreeMap.length_toList.symm
    _ = d.entries.length := hperm.length_eq
    _ = d.qubits.toList.length := List.length_map _
    _ = d.qubits.size := Std.ExtTreeMap.length_toList

end Consistent

def wiring (d : Device) : Wiring := ⟨d.layout.qubitOf?, d.registry?⟩

theorem couplers_known {d : Device} {name : String} {pair : String × String}
    (h : d.couplers.pairFor? name = some pair) : d.registry? = some d.couplers := by
  unfold registry?
  rw [if_neg]
  intro hempty
  have hpairs : d.couplers.pairs = ∅ := Std.ExtTreeMap.isEmpty_iff.mp hempty
  rw [CouplerRegistry.pairFor?, hpairs] at h
  exact absurd h (by simp)

namespace Consistent

variable {d : Device}

theorem lineFilter_eq (h : d.Consistent) : d.lineFilter = .ok ⟨d.ignoredStarts⟩ := by
  have hnone : LineFilter.barrierStart? d.ignoredStarts = none :=
    (LineFilter.barrierStart?_eq_none_iff _).mpr h.starts
  rw [lineFilter, LineFilter.make, hnone]
  rfl

theorem parse_eq (h : d.Consistent) (source : String) :
    d.parse source = Circuit.ofScript d.wiring (some ⟨d.ignoredStarts⟩) source := by
  rw [parse, h.lineFilter_eq]
  rfl

/-- A line on a registered coupler stands for a gate on the two qubits of its labels. -/
theorem exists_denotes (h : d.Consistent) {name a b : String}
    (hpair : d.couplers.pairFor? name = some (a, b)) :
    ∃ p q, d.layout.qubitOf? a = some p ∧ d.layout.qubitOf? b = some q ∧ p ≠ q ∧
      d.wiring.Denotes (.coupled .cz name) (.onCoupler [p, q]) := by
  obtain ⟨hne, ha, hb⟩ := h.couplers name a b hpair
  have hp : d.layout.qubitOf? a = some ⟨d.qubits[a]⟩ :=
    (h.qubitOf?_iff a _).mpr (Std.ExtTreeMap.getElem?_eq_some_getElem ha)
  have hq : d.layout.qubitOf? b = some ⟨d.qubits[b]⟩ :=
    (h.qubitOf?_iff b _).mpr (Std.ExtTreeMap.getElem?_eq_some_getElem hb)
  have hpq : (⟨d.qubits[a]⟩ : Qubit) ≠ ⟨d.qubits[b]⟩ := by
    intro hsame
    rw [hsame, ← labelOf?_layout_iff] at hp
    rw [← labelOf?_layout_iff] at hq
    exact hne (Option.some.inj (hp.symm.trans hq))
  exact ⟨_, _, hp, hq, hpq, .coupled rfl (couplers_known hpair) hpair hp hq hpq⟩

end Consistent
end Device

section Reading

variable {w : Wiring} {filter : Option LineFilter} {source : String}

/-- A statement that stands for an operation is refused only because the open moment uses one of its
qubits. -/
theorem Wiring.Denotes.clash_of_step {l : ProgramLine} {op : Operation}
    (hop : w.Denotes l.statement op) {s : Assembly} {e : ScriptError}
    (h : Assembly.step w s l = .error e) :
    ∃ q ∈ op.qubits, s.current.operatesOn q = true ∧ e = .build (.duplicateQubit q op.name) := by
  have hbarrier : l.statement.isBarrier = false := by
    generalize l.statement = u at hop
    cases hop <;> rfl
  rw [Assembly.step, if_neg (by simp [hbarrier]), hop.operation?_eq] at h
  obtain h | ⟨m, -, h⟩ := (bind_eq_error_iff (liftBuild (s.current.push op)) _ e).mp h
  · cases hpush : s.current.push op with
    | ok m => exact absurd h (by simp [hpush, liftBuild, Except.mapError])
    | error cause =>
      obtain ⟨front, q, back, hqubits, -, hused, rfl⟩ := (s.current.push_eq_error_iff op _).mp hpush
      have he : e = .build (.duplicateQubit q op.name) := by
        simpa [hpush, liftBuild, Except.mapError, eq_comm] using h
      exact ⟨q, by simp [hqubits], hused, he⟩
  · exact absurd h (pure_ne_error _ e)

/-- No line that stands for an operation is refused for an unknown label. -/
theorem Wiring.Denotes.ofScript_ne_unmappedLabel {p : Program}
    (hp : Program.ofText filter source = .ok p) {l : ProgramLine} (hl : l ∈ p.lines)
    {op : Operation} (hop : w.Denotes l.statement op) (label : String) :
    Circuit.ofScript w filter source ≠ .error (.unmappedLabel label l.number) := by
  intro h
  rcases Circuit.exists_of_ofScript_eq_error h with h | ⟨p', hp', he | ⟨k, hk, s, hs⟩⟩
  · exact absurd (hp.symm.trans h) (by simp)
  · cases he
  · obtain rfl : p = p' := Except.ok.inj (hp.symm.trans hp')
    -- the error names the line that it comes from
    obtain ⟨hnumber, -⟩ :=
      ScriptError.OfStatement.unmappedLabel_iff.mp (s.failsOnly_step k _ hs)
    obtain rfl : l = k := Program.line_eq_of_number_eq hp hl hk hnumber
    obtain ⟨q, -, -, he⟩ := hop.clash_of_step hs
    cases he

/-- The start of a line is refused only where the filter is made. -/
theorem Circuit.ofScript_ne_barrierStart (start : String) :
    Circuit.ofScript w filter source ≠ .error (.barrierStart start) := by
  intro h
  rcases exists_of_ofScript_eq_error h with h | ⟨p, -, he | ⟨l, -, s, hs⟩⟩
  · cases Program.failsOnly_ofText filter source _ h
  · cases he
  · cases s.failsOnly_step l _ hs

end Reading

namespace Device.Consistent

variable {d : Device}

theorem compile_ne_noAgents (h : d.Consistent) (c : Circuit) : d.compile c ≠ .error .noAgents :=
  Circuit.toScript_ne_noAgents h.agents c

theorem parse_ne_barrierStart (h : d.Consistent) (source start : String) :
    d.parse source ≠ .error (.barrierStart start) := by
  rw [h.parse_eq]
  exact Circuit.ofScript_ne_barrierStart start

section Coupled

variable {l : ProgramLine} {name a b : String} (h : d.Consistent)
  (hstatement : l.statement = .coupled .cz name) (hpair : d.couplers.pairFor? name = some (a, b))

include h hstatement hpair

/-- A line on a registered coupler is not refused for a label. -/
theorem parse_ne_unmappedLabel {filter : LineFilter} (hfilter : d.lineFilter = .ok filter)
    {source : String} {p : Program} (hp : Program.ofText (some filter) source = .ok p)
    (hl : l ∈ p.lines) (label : String) :
    d.parse source ≠ .error (.unmappedLabel label l.number) := by
  obtain rfl : ⟨d.ignoredStarts⟩ = filter := Except.ok.inj (h.lineFilter_eq.symm.trans hfilter)
  obtain ⟨_, _, -, -, -, hop⟩ := h.exists_denotes hpair
  rw [← hstatement] at hop
  rw [h.parse_eq]
  exact hop.ofScript_ne_unmappedLabel hp hl label

/-- Such a line stands for a gate, and only a qubit that is in use can keep that out of the open
moment. -/
theorem exists_operation_of_coupled :
    ∃ p q, d.layout.qubitOf? a = some p ∧ d.layout.qubitOf? b = some q ∧ p ≠ q ∧
      l.statement.operation? d.wiring l.number = .ok (some (.onCoupler [p, q])) ∧
      ∀ s e, Assembly.step d.wiring s l = .error e → ∃ r ∈ [p, q],
        s.current.operatesOn r = true ∧
        e = .build (.duplicateQubit r (Operation.onCoupler [p, q]).name) := by
  obtain ⟨p, q, hp, hq, hne, hop⟩ := h.exists_denotes hpair
  rw [← hstatement] at hop
  exact ⟨p, q, hp, hq, hne, hop.operation?_eq l.number, fun s e hs => hop.clash_of_step hs⟩

end Coupled
end Device.Consistent

/-- A description passes its check exactly if it has agents, no two labels share an index, each
coupler joins two different labels that it knows, and no line start could be that of a barrier. Then
its layout holds all of its labels with their qubits, and both directions of it are inverse to each
other. No circuit is refused for missing agents, and no script for its line starts. And a line on a
registered coupler is no line that is refused for an unknown label: it stands for a gate on two
different qubits, and is only refused if the moment that it joins uses one of them. -/
theorem Device.checked_iff_and_uses (d : Device) :
    (d.checked = .ok d ↔ d.Consistent) ∧
    (d.checked = .ok d →
      (∀ label q, d.layout.qubitOf? label = some q ↔ d.qubits[label]? = some q.index) ∧
      (∀ q label, d.layout.labelOf? q = some label ↔ d.layout.qubitOf? label = some q) ∧
      d.layout.size = d.qubits.size ∧
      (∀ c, d.compile c ≠ .error .noAgents) ∧
      (∀ source start, d.parse source ≠ .error (.barrierStart start)) ∧
      ∀ filter source p l name a b, d.lineFilter = .ok filter →
        Program.ofText (some filter) source = .ok p → l ∈ p.lines →
        l.statement = .coupled .cz name → d.couplers.pairFor? name = some (a, b) →
          (∀ label, d.parse source ≠ .error (.unmappedLabel label l.number)) ∧
          ∃ p q, d.layout.qubitOf? a = some p ∧ d.layout.qubitOf? b = some q ∧ p ≠ q ∧
            l.statement.operation? d.wiring l.number = .ok (some (.onCoupler [p, q])) ∧
            ∀ s e, Assembly.step d.wiring s l = .error e → ∃ r ∈ [p, q],
              s.current.operatesOn r = true ∧
              e = .build (.duplicateQubit r (Operation.onCoupler [p, q]).name)) := by
  refine ⟨d.checked_eq_ok_iff, fun hchecked => ?_⟩
  have h : d.Consistent := d.checked_eq_ok_iff.mp hchecked
  refine ⟨h.qubitOf?_iff, d.labelOf?_layout_iff, h.size_layout, h.compile_ne_noAgents,
    h.parse_ne_barrierStart, ?_⟩
  intro filter source p l name a b hfilter hp hl hstatement hpair
  exact ⟨h.parse_ne_unmappedLabel hstatement hpair hfilter hp hl,
    h.exists_operation_of_coupled hstatement hpair⟩

def Device.pair : Device :=
  ⟨(∅ : Std.ExtTreeMap String UInt32).insertMany [("a", 4), ("b", 1)], ["A"],
    .ofList [("G", ("b", "a"))], ["M", "BX"], []⟩

theorem Device.checked_iff_and_uses_pair :
    pair.checked = .ok pair ∧ pair.layout.qubitOf? "a" = some ⟨4⟩ ∧
    pair.layout.labelOf? ⟨1⟩ = some "b" ∧ pair.layout.size = 2 ∧
    pair.compile ⟨[]⟩ ≠ .error .noAgents ∧
    pair.parse "X a\nCZ G\nB A\n" ≠ .error (.barrierStart "BX") ∧
    pair.parse "X a\nCZ G\nB A\n" ≠ .error (.unmappedLabel "b" 2) := by
  obtain ⟨-, hchecked⟩ := checked_iff_and_uses pair
  have hcheck : pair.checked = .ok pair := by decide +kernel
  obtain ⟨hqubits, hlabels, hsize, hcompile, hparse, hcoupled⟩ := hchecked hcheck
  have hprogram : Program.ofText (some ⟨["M", "BX"]⟩) "X a\nCZ G\nB A\n" =
      .ok ⟨[⟨1, .gate .x "a"⟩, ⟨2, .coupled .cz "G"⟩, ⟨3, .barrier ["A"]⟩]⟩ := by decide +kernel
  obtain ⟨hunmapped, -⟩ := hcoupled ⟨["M", "BX"]⟩ _ _ ⟨2, .coupled .cz "G"⟩ "G" "b" "a"
    (by decide +kernel) hprogram (by simp) rfl (by decide +kernel)
  refine ⟨hcheck, (hqubits "a" ⟨4⟩).mpr (by decide +kernel),
    (hlabels ⟨1⟩ "b").mpr ((hqubits "b" ⟨1⟩).mpr (by decide +kernel)), ?_, hcompile _,
    hparse _ "BX", hunmapped "b"⟩
  rw [hsize]
  decide +kernel

end PulseScript
