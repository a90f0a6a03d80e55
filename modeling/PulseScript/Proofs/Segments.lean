import Mathlib
import PulseScript.Proofs.RoundTrip
import PulseScript.Proofs.Statements

/-!
# Programs by their segments

The barriers of a program divide its statements into segments. A program is assembled if
every statement is known to the wiring and no segment uses a qubit twice, and then each
segment is one moment, in its own order. The last segment has no barrier behind it and is a
moment only if it holds an operation.
-/
namespace PulseScript

namespace Wiring

/-- The operations of a segment: one for each statement that is one, in their order. -/
def Fills (w : Wiring) (seg : List Statement) (ops : List Operation) : Prop :=
  List.Forall₂ w.Denotes (seg.filter Statement.isOperation) ops

variable {w : Wiring} {seg : List Statement} {ops : List Operation} {s : Statement}

theorem fills_cons_of_not_isOperation (h : s.isOperation = false) :
    w.Fills (s :: seg) ops ↔ w.Fills seg ops := by
  rw [Fills, Fills, List.filter_cons_of_neg (by simp [h])]

theorem fills_cons_of_isOperation (h : s.isOperation = true) :
    w.Fills (s :: seg) ops ↔ ∃ op rest, w.Denotes s op ∧ w.Fills seg rest ∧ ops = op :: rest := by
  rw [Fills, List.filter_cons_of_pos h, List.forall₂_cons_left_iff]
  rfl

/-- A qubit that a segment uses is used by one of its operations. -/
theorem Fills.exists_of_uses (h : w.Fills seg ops) (hs : s ∈ seg) {q : Qubit}
    (hq : w.Uses s q) : ∃ op ∈ ops, q ∈ op.qubits := by
  have hop : s.isOperation = true := by
    by_contra hnot
    exact not_uses_of_not_isOperation (by simpa using hnot) q hq
  obtain ⟨op, hmem, hden⟩ := forall₂_right_of_mem h (List.mem_filter.mpr ⟨hs, hop⟩)
  exact ⟨op, hmem, (hden.uses_iff q).mp hq⟩

theorem Fills.exists_of_mem (h : w.Fills seg ops) {op : Operation} (hop : op ∈ ops) :
    ∃ s ∈ seg, w.Denotes s op := by
  obtain ⟨s, hs, hden⟩ := forall₂_left_of_mem h hop
  exact ⟨s, (List.mem_filter.mp hs).1, hden⟩

/-- The operations of a segment are apart exactly if its statements use different qubits. -/
theorem Fills.apart_iff (h : w.Fills seg ops) :
    ops.Pairwise Operation.Apart ↔ seg.Pairwise w.Separate := by
  induction seg generalizing ops with
  | nil =>
    obtain rfl : ops = [] := List.forall₂_nil_left_iff.mp h
    simp
  | cons s seg ih =>
    cases hs : s.isOperation with
    | false =>
      have hfree : ∀ u ∈ seg, w.Separate s u :=
        fun u _ q hq => absurd hq (not_uses_of_not_isOperation hs q)
      rw [ih ((fills_cons_of_not_isOperation hs).mp h), List.pairwise_cons]
      exact (and_iff_right hfree).symm
    | true =>
      obtain ⟨op, rest, hden, hrest, rfl⟩ := (fills_cons_of_isOperation hs).mp h
      rw [List.pairwise_cons, List.pairwise_cons, ih hrest]
      refine and_congr_left fun _ => ⟨fun hfree u hu q hq hqu => ?_, fun hfree y hy q hq hqy => ?_⟩
      · obtain ⟨y, hy, hqy⟩ := hrest.exists_of_uses hu hqu
        exact hfree y hy ((hden.uses_iff q).mp hq) hqy
      · obtain ⟨u, hu, hdenu⟩ := hrest.exists_of_mem hy
        exact hfree u hu q ((hden.uses_iff q).mpr hq) ((hdenu.uses_iff q).mpr hqy)

theorem knows_of_not_isOperation (h : s.isOperation = false) : w.Knows s := by
  cases s <;> trivial

/-- A segment has operations that are apart exactly if every statement in it is known and no
two of them use the same qubit. -/
theorem exists_apart_fills_iff (hfits : ∀ s ∈ seg, s.Fits) :
    (∃ ops, w.Fills seg ops ∧ ops.Pairwise Operation.Apart) ↔
      (∀ s ∈ seg, w.Knows s) ∧ seg.Pairwise w.Separate := by
  have hknown : (∃ ops, w.Fills seg ops) ↔ ∀ s ∈ seg, w.Knows s := by
    simp only [Fills, exists_forall₂_iff, List.mem_filter, and_imp]
    refine forall₂_congr fun s hs => ?_
    cases hop : s.isOperation with
    | false => simpa using knows_of_not_isOperation hop
    | true => simpa using exists_denotes_iff (hfits s hs) hop
  rw [← hknown]
  constructor
  · rintro ⟨ops, hfill, hapart⟩
    exact ⟨⟨ops, hfill⟩, hfill.apart_iff.mp hapart⟩
  · rintro ⟨⟨ops, hfill⟩, hapart⟩
    exact ⟨ops, hfill, hfill.apart_iff.mpr hapart⟩

/-- The operations of the open moment and of all after it, when it has some operations already
and the segments are still to come: the first segment goes on with the open moment. -/
def Continues (w : Wiring) (current : List Operation) (seg : List Statement)
    (segs : List (List Statement)) (groups : List (List Operation)) : Prop :=
  (∃ ops rest, w.Fills seg ops ∧ List.Forall₂ w.Fills segs rest ∧
      groups = (current ++ ops) :: rest) ∧
    ∀ g ∈ groups, g.Pairwise Operation.Apart

variable {current : List Operation} {segs : List (List Statement)} {groups : List (List Operation)}

theorem continues_start_iff : w.Continues [] seg segs groups ↔
    List.Forall₂ w.Fills (seg :: segs) groups ∧ ∀ g ∈ groups, g.Pairwise Operation.Apart := by
  rw [Continues, List.forall₂_cons_left_iff]
  rfl

theorem continues_end_iff (hapart : current.Pairwise Operation.Apart) :
    w.Continues current [] [] groups ↔ groups = [current] := by
  constructor
  · rintro ⟨⟨ops, rest, hops, hrest, rfl⟩, -⟩
    obtain rfl : ops = [] := List.forall₂_nil_left_iff.mp hops
    obtain rfl := List.forall₂_nil_left_iff.mp hrest
    rw [List.append_nil]
  · rintro rfl
    exact ⟨⟨[], [], .nil, .nil, by rw [List.append_nil]⟩, by simpa using hapart⟩

/-- At the end of its segment the open moment is complete. -/
theorem continues_next_iff (hapart : current.Pairwise Operation.Apart) :
    w.Continues current [] (seg :: segs) groups ↔
      ∃ rest, w.Continues [] seg segs rest ∧ groups = current :: rest := by
  simp only [continues_start_iff]
  constructor
  · rintro ⟨⟨ops, rest, hops, hrest, rfl⟩, hall⟩
    obtain rfl : ops = [] := List.forall₂_nil_left_iff.mp hops
    exact ⟨rest, ⟨hrest, (List.forall_mem_cons.mp hall).2⟩, by rw [List.append_nil]⟩
  · rintro ⟨rest, ⟨hrest, hall⟩, rfl⟩
    exact ⟨⟨[], rest, .nil, hrest, by rw [List.append_nil]⟩,
      List.forall_mem_cons.mpr ⟨hapart, hall⟩⟩

theorem continues_cons_of_not_isOperation (h : s.isOperation = false) :
    w.Continues current (s :: seg) segs groups ↔ w.Continues current seg segs groups := by
  simp only [Continues, fills_cons_of_not_isOperation h]

/-- An operation joins the open moment, where it is apart from all that is there. -/
theorem continues_cons_of_isOperation (h : s.isOperation = true) :
    w.Continues current (s :: seg) segs groups ↔ ∃ op, w.Denotes s op ∧
      (∀ x ∈ current, x.Apart op) ∧ w.Continues (current ++ [op]) seg segs groups := by
  constructor
  · rintro ⟨⟨_, rest, hcons, hrest, rfl⟩, hall⟩
    obtain ⟨op, ops, hden, hops, rfl⟩ := (fills_cons_of_isOperation h).mp hcons
    have hfirst := (List.forall_mem_cons.mp hall).1
    have hfree : ∀ x ∈ current, x.Apart op := fun x hx =>
      (List.pairwise_append.mp hfirst).2.2 x hx op List.mem_cons_self
    exact ⟨op, hden, hfree, ⟨ops, rest, hops, hrest, by simp⟩, hall⟩
  · rintro ⟨op, hden, -, ⟨ops, rest, hops, hrest, rfl⟩, hall⟩
    have hcons : w.Fills (s :: seg) (op :: ops) :=
      (fills_cons_of_isOperation h).mpr ⟨op, ops, hden, hops, rfl⟩
    exact ⟨⟨op :: ops, rest, hcons, hrest, by simp⟩, hall⟩

end Wiring

namespace Assembly

def moments (s : Assembly) : List Moment := s.closed.reverse ++ [s.current]

variable {w : Wiring} {s s' : Assembly}

theorem moments_inj : s.moments = s'.moments ↔ s = s' := by
  refine ⟨fun h => ?_, fun h => h ▸ rfl⟩
  obtain ⟨closed, current⟩ := s
  obtain ⟨closed', current'⟩ := s'
  simpa [moments] using List.append_inj' h rfl

theorem step_of_isBarrier {l : ProgramLine} (h : l.statement.isBarrier = true) :
    Assembly.step w s l = .ok s.close := by
  rw [step, if_pos h]

theorem step_of_not_isOperation {l : ProgramLine} (hb : l.statement.isBarrier = false)
    (h : l.statement.isOperation = false) : Assembly.step w s l = .ok s := by
  rw [step, if_neg (by simp [hb]), (l.statement.operation?_eq_none_iff l.number).mpr h]
  rfl

/-- An operation joins the open moment if it is apart from all that is there. -/
theorem step_eq_ok_iff_of_isOperation {l : ProgramLine}
    (h : l.statement.isOperation = true) :
    Assembly.step w s l = .ok s' ↔ ∃ op, w.Denotes l.statement op ∧
      (∀ x ∈ s.current.operations, x.Apart op) ∧
      s' = ⟨s.closed, ⟨s.current.operations ++ [op]⟩⟩ := by
  have hb : l.statement.isBarrier = false := by
    cases hs : l.statement <;> simp [hs, Statement.isOperation, Statement.isBarrier] at h ⊢
  rw [step, if_neg (by simp [hb]), bind_eq_ok_iff]
  constructor
  · rintro ⟨found, hfound, hs⟩
    cases found with
    | none =>
      rw [Statement.operation?_eq_none_iff, h] at hfound
      exact absurd hfound (by simp)
    | some op =>
      simp only [bind_eq_ok_iff, pure_eq_ok_iff, liftBuild_eq_ok_iff] at hs
      obtain ⟨m, hm, rfl⟩ := hs
      obtain ⟨hapart, rfl⟩ := (Moment.push_eq_ok_iff _ _ _).mp hm
      exact ⟨op, (Statement.operation?_eq_some_iff _ op).mp hfound, hapart, rfl⟩
  · rintro ⟨op, hop, hapart, rfl⟩
    refine ⟨some op, (Statement.operation?_eq_some_iff _ op).mpr hop, ?_⟩
    simp only [bind_eq_ok_iff, pure_eq_ok_iff, liftBuild_eq_ok_iff]
    exact ⟨_, (Moment.push_eq_ok_iff _ _ _).mpr ⟨hapart, rfl⟩, rfl⟩

/-- Statement after statement fills the open moment with the first segment and one new moment
with each further segment, if the operations of each moment are apart. -/
theorem foldlM_eq_ok_iff {ls : List ProgramLine} {seg : List Statement}
    {segs : List (List Statement)} {closed : List Moment} {current : List Operation}
    (hsplit : (ls.map (·.statement)).splitOnP Statement.isBarrier = seg :: segs)
    (hapart : current.Pairwise Operation.Apart) :
    ls.foldlM (Assembly.step w) ⟨closed, ⟨current⟩⟩ = .ok s ↔
      ∃ groups, w.Continues current seg segs groups ∧
        s.moments = closed.reverse ++ groups.map Moment.mk := by
  induction ls generalizing closed current seg segs with
  | nil =>
    obtain ⟨rfl, rfl⟩ : [] = seg ∧ [] = segs := by simpa using hsplit
    simp only [Wiring.continues_end_iff hapart, exists_eq_left]
    rw [List.foldlM_nil, pure_eq_ok_iff, eq_comm, ← moments_inj]
    rfl
  | cons l ls ih =>
    obtain ⟨seg', segs', htail⟩ := List.exists_cons_of_ne_nil
      (List.splitOnP_ne_nil Statement.isBarrier (ls.map (·.statement)))
    rw [List.map_cons, List.splitOnP_cons_eq_if_modifyHead, htail] at hsplit
    rw [List.foldlM_cons, bind_eq_ok_iff]
    cases hb : l.statement.isBarrier with
    | true =>
      -- the open moment is complete, and the next segment starts a new one
      obtain ⟨rfl, rfl⟩ : [] = seg ∧ seg' :: segs' = segs := by simpa [hb] using hsplit
      simp only [step_of_isBarrier hb, close, Moment.empty, Except.ok.injEq, exists_eq_left',
        ih htail .nil, Wiring.continues_next_iff hapart]
      constructor
      · rintro ⟨groups, hgroups, h⟩
        exact ⟨_, ⟨groups, hgroups, rfl⟩, by simpa using h⟩
      · rintro ⟨_, ⟨groups, hgroups, rfl⟩, h⟩
        exact ⟨groups, hgroups, by simpa using h⟩
    | false =>
      obtain ⟨rfl, rfl⟩ : l.statement :: seg' = seg ∧ segs' = segs := by simpa [hb] using hsplit
      cases hop : l.statement.isOperation with
      | false =>
        simp only [step_of_not_isOperation hb hop, Except.ok.injEq, exists_eq_left',
          ih htail hapart, Wiring.continues_cons_of_not_isOperation hop]
      | true =>
        have hextended : ∀ op, (∀ x ∈ current, x.Apart op) →
            (current ++ [op]).Pairwise Operation.Apart := fun op hfree =>
          List.pairwise_append.mpr ⟨hapart, List.pairwise_singleton _ _, by simpa using hfree⟩
        simp only [step_eq_ok_iff_of_isOperation hop, Wiring.continues_cons_of_isOperation hop]
        constructor
        · rintro ⟨_, ⟨op, hden, hfree, rfl⟩, hrun⟩
          obtain ⟨groups, hgroups, h⟩ := (ih htail (hextended op hfree)).mp hrun
          exact ⟨groups, ⟨op, hden, hfree, hgroups⟩, h⟩
        · rintro ⟨groups, ⟨op, hden, hfree, hgroups⟩, h⟩
          exact ⟨_, ⟨op, hden, hfree, rfl⟩,
            (ih htail (hextended op hfree)).mpr ⟨groups, hgroups, h⟩⟩

/-- The moments of the circuit: all so far, but the open one only if it holds anything. -/
theorem finish_moments (s : Assembly) :
    s.finish.moments =
      s.closed.reverse ++ if s.current.operations = [] then [] else [s.current] := by
  unfold finish
  by_cases h : s.current.operations = [] <;> simp [h, close]

end Assembly

theorem Circuit.eq_of_moments {c d : Circuit} (h : c.moments = d.moments) : c = d := by
  obtain ⟨ms⟩ := c
  obtain ⟨ns⟩ := d
  exact congrArg Circuit.mk h

namespace Program

/-- The statements before, between and behind the barriers. -/
def segments (p : Program) : List (List Statement) :=
  (p.lines.map (·.statement)).splitOnP Statement.isBarrier

/-- The statements behind the last barrier. -/
def openSegment (p : Program) : List Statement := p.segments.getLast?.getD []

theorem length_segments (p : Program) : p.segments.length = p.numBarriers + 1 := by
  obtain ⟨ls⟩ := p
  simp only [segments, numBarriers]
  induction ls with
  | nil => rfl
  | cons l ls ih =>
    rw [List.map_cons, List.splitOnP_cons_eq_if_modifyHead, List.countP_cons]
    cases l.statement.isBarrier with
    | true => simp [ih]
    | false => simp [ih]

/-- The statements of a program run to one group of operations for each segment. -/
theorem foldlM_start_eq_ok_iff {w : Wiring} {p : Program} (s : Assembly) :
    p.lines.foldlM (Assembly.step w) .start = .ok s ↔
      ∃ groups, List.Forall₂ w.Fills p.segments groups ∧
        (∀ g ∈ groups, g.Pairwise Operation.Apart) ∧ s.moments = groups.map Moment.mk := by
  obtain ⟨seg, segs, hsplit⟩ := List.exists_cons_of_ne_nil
    (List.splitOnP_ne_nil Statement.isBarrier (p.lines.map (·.statement)))
  rw [segments, hsplit, show Assembly.start = ⟨[], ⟨[]⟩⟩ from rfl,
    Assembly.foldlM_eq_ok_iff hsplit .nil]
  simp only [Wiring.continues_start_iff, List.reverse_nil, List.nil_append, and_assoc]

/-- A program is assembled to the moments of its segments. -/
theorem assemble_eq_ok_iff {w : Wiring} {p : Program} (c : Circuit) :
    p.assemble w = .ok c ↔ ∃ groups last, List.Forall₂ w.Fills p.segments (groups ++ [last]) ∧
      (∀ g ∈ groups ++ [last], g.Pairwise Operation.Apart) ∧
      c.moments = (groups ++ if last = [] then [] else [last]).map Moment.mk := by
  rw [assemble_eq_ok_iff_foldlM]
  constructor
  · rintro ⟨s, hs, rfl⟩
    obtain ⟨groups, hgroups, hall, h⟩ := (foldlM_start_eq_ok_iff s).mp hs
    obtain ⟨front, back, rfl, hfront, hback⟩ := List.map_eq_append_iff.mp h.symm
    obtain ⟨last, rfl, hlast⟩ := List.map_eq_singleton_iff.mp hback
    refine ⟨front, last, hgroups, hall, ?_⟩
    rw [Assembly.finish_moments, ← hfront, ← hlast]
    by_cases he : last = [] <;> simp [he]
  · rintro ⟨groups, last, hgroups, hall, h⟩
    refine ⟨⟨(groups.map Moment.mk).reverse, ⟨last⟩⟩,
      (foldlM_start_eq_ok_iff _).mpr ⟨_, hgroups, hall, by simp [Assembly.moments]⟩, ?_⟩
    have hmoments : (Assembly.finish ⟨(groups.map Moment.mk).reverse, ⟨last⟩⟩).moments =
        c.moments := by
      rw [Assembly.finish_moments, h]
      by_cases he : last = [] <;> simp [he]
    exact Circuit.eq_of_moments hmoments

/-- Every statement but the barriers stands in a segment. -/
theorem exists_mem_segments_iff (p : Program) (s : Statement) :
    (∃ seg ∈ p.segments, s ∈ seg) ↔ s.isBarrier = false ∧ ∃ l ∈ p.lines, l.statement = s := by
  obtain ⟨ls⟩ := p
  simp only [segments]
  induction ls with
  | nil => simp
  | cons l ls ih =>
    obtain ⟨seg, segs, hsplit⟩ := List.exists_cons_of_ne_nil
      (List.splitOnP_ne_nil Statement.isBarrier (ls.map (·.statement)))
    rw [hsplit] at ih
    rw [List.map_cons, List.splitOnP_cons_eq_if_modifyHead, hsplit]
    cases hb : l.statement.isBarrier with
    | true =>
      have hne : l.statement = s → s.isBarrier = true := fun he => he ▸ hb
      simp only [if_true, List.exists_mem_cons_iff, List.not_mem_nil, false_or] at ih ⊢
      rw [ih]
      grind
    | false =>
      simp only [Bool.false_eq_true, if_false, List.modifyHead_cons, List.mem_cons] at ih ⊢
      grind

/-- The last group fills the open segment. -/
theorem fills_openSegment {w : Wiring} {p : Program} {groups : List (List Operation)}
    {last : List Operation} (h : List.Forall₂ w.Fills p.segments (groups ++ [last])) :
    w.Fills p.openSegment last := by
  obtain ⟨seg, hseg, hfill⟩ := forall₂_left_getElem? h (k := groups.length) (y := last) (by simp)
  have hlength : p.segments.length = groups.length + 1 := by simpa using h.length_eq
  have hopen : p.openSegment = seg := by
    rw [openSegment, List.getLast?_eq_getElem?, hlength, Nat.add_sub_cancel, hseg, Option.getD_some]
  exact hopen ▸ hfill

/-- Statements are known one by one or segment by segment. -/
theorem knows_segments_iff (w : Wiring) (p : Program) :
    (∀ seg ∈ p.segments, ∀ s ∈ seg, w.Knows s) ↔ ∀ l ∈ p.lines, w.Knows l.statement := by
  constructor
  · intro h l hl
    cases hb : l.statement.isBarrier with
    | true =>
      refine Wiring.knows_of_not_isOperation ?_
      cases hs : l.statement <;> simp [hs, Statement.isBarrier, Statement.isOperation] at hb ⊢
    | false =>
      obtain ⟨seg, hseg, hs⟩ := (p.exists_mem_segments_iff _).mpr ⟨hb, l, hl, rfl⟩
      exact h seg hseg _ hs
  · intro h seg hseg s hs
    obtain ⟨-, l, hl, rfl⟩ := (p.exists_mem_segments_iff s).mp ⟨seg, hseg, hs⟩
    exact h l hl

/-- A program whose statements fit is assembled if they are known and no segment uses a qubit
twice. -/
theorem assemble_isOk_iff {w : Wiring} {p : Program} (hfits : ∀ l ∈ p.lines, l.statement.Fits) :
    (∃ c, p.assemble w = .ok c) ↔
      (∀ l ∈ p.lines, w.Knows l.statement) ∧ ∀ seg ∈ p.segments, seg.Pairwise w.Separate := by
  have hsegment : ∀ seg ∈ p.segments, (∃ ops, w.Fills seg ops ∧ ops.Pairwise Operation.Apart) ↔
      (∀ s ∈ seg, w.Knows s) ∧ seg.Pairwise w.Separate := by
    intro seg hseg
    refine Wiring.exists_apart_fills_iff fun s hs => ?_
    obtain ⟨-, l, hl, rfl⟩ := (p.exists_mem_segments_iff s).mp ⟨seg, hseg, hs⟩
    exact hfits l hl
  have hgroups : (∃ c, p.assemble w = .ok c) ↔ ∃ groups, List.Forall₂ w.Fills p.segments groups ∧
      ∀ g ∈ groups, g.Pairwise Operation.Apart := by
    simp only [assemble_eq_ok_iff]
    constructor
    · rintro ⟨c, groups, last, hfills, hall, -⟩
      exact ⟨_, hfills, hall⟩
    · rintro ⟨groups, hfills, hall⟩
      have hne : groups ≠ [] := by
        rintro rfl
        exact List.splitOnP_ne_nil _ _ (List.forall₂_nil_right_iff.mp hfills)
      rw [← List.dropLast_append_getLast hne] at hfills hall
      exact ⟨⟨_⟩, _, _, hfills, hall, rfl⟩
  rw [hgroups, exists_forall₂_mem_iff, forall₂_congr hsegment, forall₂_and, knows_segments_iff]

/-- The moments of an assembled program are its segments, the open one only if it holds an
operation. -/
theorem moments_of_assemble {w : Wiring} {p : Program} {c : Circuit}
    (hc : p.assemble w = .ok c) :
    c.numMoments = p.numBarriers + (if p.openSegment.any Statement.isOperation then 1 else 0) ∧
      ∀ (k : Nat) (m : Moment), c.moments[k]? = some m →
        ∃ seg, p.segments[k]? = some seg ∧ w.Fills seg m.operations := by
  obtain ⟨groups, last, hfills, -, hmoments⟩ := (assemble_eq_ok_iff c).mp hc
  have hlength : groups.length = p.numBarriers := by
    simpa [length_segments] using hfills.length_eq.symm
  have hlast : last = [] ↔ p.openSegment.any Statement.isOperation = false := by
    rw [← List.length_eq_zero_iff, ← (fills_openSegment hfills).length_eq, List.length_eq_zero_iff,
      List.filter_eq_nil_iff, List.any_eq_false]
  rw [Circuit.numMoments, hmoments]
  constructor
  · rw [List.length_map, List.length_append, hlength]
    by_cases he : last = []
    · simp [he, hlast.mp he]
    · simp [he, Bool.eq_true_of_not_eq_false (mt hlast.mpr he)]
  · intro k m hm
    rw [List.getElem?_map, Option.map_eq_some_iff] at hm
    obtain ⟨g, hg, rfl⟩ := hm
    refine forall₂_left_getElem? hfills ?_
    by_cases he : last = []
    · rw [if_pos he, List.append_nil] at hg
      rw [List.getElem?_append_left (List.getElem?_eq_some_iff.mp hg).1, hg]
    · rwa [if_neg he] at hg

/-- A program that was read is assembled if and only if every statement is known and no
segment uses a qubit twice. The circuit then has a moment for every barrier, and one more if
an operation stands behind the last barrier, and each moment holds the operations of its
segment, one for each statement and in their order. -/
theorem assemble_by_segments (w : Wiring) (filter : Option LineFilter) (source : String)
    (p : Program) (hp : Program.ofText filter source = .ok p) :
    ((∃ c, p.assemble w = .ok c) ↔
      (∀ l ∈ p.lines, w.Knows l.statement) ∧ ∀ seg ∈ p.segments, seg.Pairwise w.Separate) ∧
    ∀ c, p.assemble w = .ok c →
      c.numMoments = p.numBarriers + (if p.openSegment.any Statement.isOperation then 1 else 0) ∧
      ∀ (k : Nat) (m : Moment), c.moments[k]? = some m →
        ∃ seg, p.segments[k]? = some seg ∧ w.Fills seg m.operations :=
  ⟨assemble_isOk_iff (fits_of_ofText hp), fun _ hc => moments_of_assemble hc⟩

/-- A comment in a segment, an empty segment, and one that stays open. -/
def mixedText : String := "X q0\n# a note\nB A\nB A\nCZ G\nB A\nM q1 q0\n"

def mixed : Program :=
  ⟨[⟨1, .gate .x "q0"⟩, ⟨2, .comment "# a note"⟩, ⟨3, .barrier ["A"]⟩, ⟨4, .barrier ["A"]⟩,
    ⟨5, .coupled .cz "G"⟩, ⟨6, .barrier ["A"]⟩, ⟨7, .measure ["q1", "q0"]⟩]⟩

theorem assemble_mixed : ∃ c, mixed.assemble .joinedPair = .ok c ∧ c.numMoments = 4 := by
  have hread : Program.ofText none mixedText = .ok mixed := by decide +kernel
  have hzero : Wiring.joinedPair.qubitOf? "q0" = some ⟨0⟩ := by decide +kernel
  have hone : Wiring.joinedPair.qubitOf? "q1" = some ⟨1⟩ := by decide +kernel
  have hpair : (CouplerRegistry.empty.insert "G" "q0" "q1").pairFor? "G" = some ("q0", "q1") := by
    decide +kernel
  obtain ⟨hiff, hmoments⟩ := assemble_by_segments .joinedPair none mixedText mixed hread
  obtain ⟨c, hc⟩ := hiff.mpr ⟨by
      simp only [mixed, List.forall_mem_cons, Wiring.Knows]
      exact ⟨⟨_, hzero⟩, trivial, trivial, trivial,
        ⟨_, _, _, _, _, rfl, hpair, hzero, hone, by decide⟩,
        trivial, ⟨_, .cons hone (.cons hzero .nil), by decide⟩, by simp⟩,
    by
      have hsegments : mixed.segments = [[.gate .x "q0", .comment "# a note"], [],
        [.coupled .cz "G"], [.measure ["q1", "q0"]]] := by decide +kernel
      have hnote : Wiring.joinedPair.Separate (.gate .x "q0") (.comment "# a note") :=
        fun q _ => Wiring.not_uses_of_not_isOperation rfl q
      simp [hsegments, hnote]⟩
  exact ⟨c, hc, (hmoments c hc).1⟩

end Program

end PulseScript
