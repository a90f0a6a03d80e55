import Mathlib
import PulseScript.Proofs.Statements

/-!
# Where statements come from

A statement stands where a line of its script does: it was read from that line, or it is a block
and the line is the start marker. One line after the other gives at most one of them, so the numbers
of the statements increase, and a number tells which statement is meant.
-/
namespace PulseScript

/-- The statement was read from one of the lines, or it is a block that starts there. -/
def ProgramLine.From (filter : Option LineFilter) (ls : List SourceLine) (d : ProgramLine) : Prop :=
  ∃ l ∈ ls, d.number = l.number ∧
    (l.statement filter = .ok d.statement ∨ l.first = .comment contextStart)

structure ReaderState.From (filter : Option LineFilter) (ls : List SourceLine) (s : ReaderState) :
    Prop where
  done : ∀ d ∈ s.done, d.From filter ls
  openBlock : ∀ b ∈ s.openBlock, ∃ l ∈ ls, b.start = l.number ∧ l.first = .comment contextStart

theorem OpenBlock.start_addLine (b : OpenBlock) (l : SourceLine) :
    (b.addLine l).start = b.start := by
  unfold addLine
  split
  · rfl
  · split
    · rfl
    · split <;> rfl

theorem ReaderState.From.step {filter : Option LineFilter} {ls : List SourceLine} {l : SourceLine}
    (hl : l ∈ ls) {s s' : ReaderState} (h : s.From filter ls)
    (hs : ReaderState.step filter s l = .ok s') : s'.From filter ls := by
  obtain ⟨hdone, hblock⟩ := h
  cases step_eq_ok_iff.mp hs with
  | opening hopen =>
    refine ⟨hdone, ?_⟩
    rintro b ⟨rfl⟩
    exact ⟨l, hl, rfl, hopen⟩
  | statement _ hu =>
    exact ⟨List.forall_mem_cons.mpr ⟨⟨l, hl, rfl, .inl hu⟩, hdone⟩, by simp⟩
  | closing =>
    obtain ⟨k, hk, hstart, hfirst⟩ := hblock _ rfl
    exact ⟨List.forall_mem_cons.mpr ⟨⟨k, hk, hstart, .inr hfirst⟩, hdone⟩, by simp⟩
  | inside =>
    obtain ⟨k, hk, hstart, hfirst⟩ := hblock _ rfl
    refine ⟨hdone, ?_⟩
    rintro b ⟨rfl⟩
    exact ⟨k, hk, (OpenBlock.start_addLine _ l).trans hstart, hfirst⟩

/-- Every statement of a program stands where a line of its script does. -/
theorem Program.from_of_ofText {filter : Option LineFilter} {source : String} {p : Program}
    (h : Program.ofText filter source = .ok p) :
    ∀ d ∈ p.lines, d.From filter (sourceLines source) := by
  obtain ⟨done, hdone, rfl⟩ := (ofText_eq_ok_iff _ _ _).mp h
  have hstart : ReaderState.start.From filter (sourceLines source) :=
    ⟨by simp [ReaderState.start], by simp [ReaderState.start]⟩
  have hend := foldlM_keeps (fun l hl s s' hs => ReaderState.From.step hl hs) hstart hdone
  exact fun d hd => hend.done d (List.mem_reverse.mp hd)

/-- No line outside of blocks is read as a block. -/
theorem SourceLine.statement_ne_context {filter : Option LineFilter} {l : SourceLine}
    {b : ContextBlock} : l.statement filter ≠ .ok (.context b) := by
  intro h
  unfold statement at h
  split at h
  · cases h
  · split at h
    · cases h
    · unfold instruction at h
      split at h
      · cases h
      · split at h <;> cases h
        rename_i hs
        unfold Statement.ofOperands at hs
        split at hs
        case h_9 => split at hs <;> cases hs
        all_goals cases hs

/-- A block has the number of a start marker. -/
theorem Program.exists_start_of_context {filter : Option LineFilter} {source : String}
    {p : Program} (h : Program.ofText filter source = .ok p) {n : Nat} {b : ContextBlock}
    (hb : ⟨n, .context b⟩ ∈ p.lines) :
    ∃ l ∈ sourceLines source, l.number = n ∧ l.first = .comment contextStart := by
  obtain ⟨l, hl, hnumber, hread⟩ := from_of_ofText h _ hb
  rcases hread with hread | hstart
  · exact absurd hread SourceLine.statement_ne_context
  · exact ⟨l, hl, hnumber.symm, hstart⟩

/-- Where a number grows along a list, it tells the elements apart. -/
theorem eq_of_pairwise_lt {α : Type} {f : α → Nat} {xs : List α}
    (h : xs.Pairwise fun x y => f x < f y) {x y : α} (hx : x ∈ xs) (hy : y ∈ xs)
    (hxy : f x = f y) : x = y := by
  have hnodup : (xs.map f).Nodup := List.pairwise_map.mpr (h.imp Nat.ne_of_lt)
  exact List.inj_on_of_nodup_map hnodup hx hy hxy

/-- The lines of a script stand in the order of their numbers. -/
theorem pairwise_sourceLines (source : String) :
    (sourceLines source).Pairwise fun l k => l.number < k.number := by
  have hlines : ((splitLines source.toList).zipIdx 1).Pairwise fun a b => a.2 < b.2 := by
    rw [← List.pairwise_map, List.zipIdx_map_snd]
    exact List.pairwise_lt_range'
  refine hlines.filterMap _ fun a b hab l hl k hk => ?_
  have hnumber := ((SourceLine.ofChars?_eq_some_iff a.2 a.1 l).mp hl).1
  have hnumber' := ((SourceLine.ofChars?_eq_some_iff b.2 b.1 k).mp hk).1
  rwa [hnumber, hnumber']

/-- No two lines of a script have the same number. -/
theorem eq_of_number_eq {source : String} {l k : SourceLine} (hl : l ∈ sourceLines source)
    (hk : k ∈ sourceLines source) (h : l.number = k.number) : l = k :=
  eq_of_pairwise_lt (pairwise_sourceLines source) hl hk h

/-- The numbers of the statements, and of the block that is open. -/
def ReaderState.numbers (s : ReaderState) : List Nat :=
  s.done.reverse.map (·.number) ++ (s.openBlock.map (·.start)).toList

/-- A line adds its own number, or none. -/
theorem ReaderState.numbers_step {filter : Option LineFilter} {s s' : ReaderState} {l : SourceLine}
    (h : step filter s l = .ok s') :
    s'.numbers = s.numbers ∨ s'.numbers = s.numbers ++ [l.number] := by
  cases step_eq_ok_iff.mp h with
  | opening => exact .inr (by simp [numbers, OpenBlock.begin])
  | statement => exact .inr (by simp [numbers])
  | closing => exact .inl (by simp [numbers])
  | inside => exact .inl (by simp [numbers, OpenBlock.start_addLine])

/-- The numbers come from the lines, one for each at most and in their order. -/
theorem ReaderState.numbers_foldlM {filter : Option LineFilter} {ls : List SourceLine}
    {s s' : ReaderState} (h : ls.foldlM (step filter) s = .ok s') :
    s'.numbers.Sublist (s.numbers ++ ls.map (·.number)) := by
  induction ls generalizing s with
  | nil =>
    obtain rfl : s = s' := by simpa [pure_eq_ok_iff] using h
    simp
  | cons l ls ih =>
    rw [List.foldlM_cons, bind_eq_ok_iff] at h
    obtain ⟨t, ht, h⟩ := h
    have hnext : t.numbers.Sublist (s.numbers ++ [l.number]) := by
      rcases numbers_step ht with hsame | hadded
      · exact hsame ▸ List.sublist_append_left _ _
      · exact hadded ▸ List.Sublist.refl _
    have hrest := (ih h).trans (hnext.append (List.Sublist.refl (ls.map (·.number))))
    simpa using hrest

namespace Program

variable {filter : Option LineFilter} {source : String} {p : Program}

/-- The statements of a script stand in the order of their numbers. -/
theorem pairwise_number (h : Program.ofText filter source = .ok p) :
    p.lines.Pairwise fun d d' => d.number < d'.number := by
  obtain ⟨done, hdone, rfl⟩ := (ofText_eq_ok_iff _ _ _).mp h
  have hsublist : (done.reverse.map (·.number)).Sublist ((sourceLines source).map (·.number)) := by
    simpa [ReaderState.numbers, ReaderState.start] using ReaderState.numbers_foldlM hdone
  have hnumbers := List.pairwise_map.mpr (pairwise_sourceLines source)
  exact List.pairwise_map.mp (hnumbers.sublist hsublist)

/-- No two statements of a script have the same number. -/
theorem line_eq_of_number_eq (h : Program.ofText filter source = .ok p) {d d' : ProgramLine}
    (hd : d ∈ p.lines) (hd' : d' ∈ p.lines) (hnumber : d.number = d'.number) : d = d' :=
  eq_of_pairwise_lt (pairwise_number h) hd hd' hnumber

end Program
end PulseScript
