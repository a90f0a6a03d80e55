import Mathlib
import PulseScript.Proofs.Barriers
import PulseScript.Proofs.RoundTrip
import PulseScript.Proofs.Unrolling

/-!
# Scripts keep the order of each qubit

A script is read as a flat circuit in which every qubit takes part in the same operations,
in the same order, as in the unrolled circuit that was compiled. An outer moment shares its
barrier with the first moment of what is nested in it, which is sound because all of them
are apart; so there are as many moments as barriers. Only the durations of decoupling sequences
may come back as other numbers.
-/
namespace PulseScript

/-- The lines are written for groups of operations whose tracks are those of the given
operations. -/
structure Conveys (t : Target) (w : Wiring) (lines : List String) (ops : List Operation)
    (groups : List (List Operation)) : Prop where
  plays : Plays t w lines groups
  apart : ∀ g ∈ groups, g.Pairwise Operation.Apart
  valid : ∀ g ∈ groups, ∀ d qs, .act (.decoupling d) qs ∈ g → d.validate = .ok () ∧ qs ≠ []
  tracks : ∀ q, track q groups.flatten = track q ops

namespace Conveys

variable {t : Target} {w : Wiring} {lines rest : List String} {xs ys : List Operation}
  {gs hs : List (List Operation)}

theorem nil : Conveys t w [] [] [] := ⟨.nil, by simp, by simp, fun _ => rfl⟩

theorem append (hx : Conveys t w lines xs gs) (hy : Conveys t w rest ys hs) :
    Conveys t w (lines ++ rest) (xs ++ ys) (gs ++ hs) := by
  refine ⟨hx.plays.append hy.plays, ?_, ?_, ?_⟩
  · exact fun g hg => (List.mem_append.mp hg).elim (hx.apart g) (hy.apart g)
  · exact fun g hg => (List.mem_append.mp hg).elim (hx.valid g) (hy.valid g)
  · intro q
    rw [List.flatten_append, track_append, track_append, hx.tracks q, hy.tracks q]

theorem replicate (h : Conveys t w lines xs gs) (n : Nat) :
    Conveys t w (List.replicate n lines).flatten (List.replicate n xs).flatten
      (List.replicate n gs).flatten := by
  induction n with
  | zero => exact nil
  | succ n ih =>
    simp only [List.replicate_succ, List.flatten_cons]
    exact h.append ih

/-- Where something of a group is on a qubit, one of the operations is. -/
theorem exists_of_mem (h : Conveys t w lines xs gs) {g : List Operation} (hg : g ∈ gs)
    {y : Operation} (hy : y ∈ g) {q : Qubit} (hq : q ∈ y.qubits) : ∃ x ∈ xs, q ∈ x.qubits := by
  have hmem := mem_track (List.mem_flatten.mpr ⟨g, hg, hy⟩) hq
  rw [h.tracks q] at hmem
  obtain ⟨x, hx, hqx, -⟩ := exists_of_mem_track hmem
  exact ⟨x, hx, hqx⟩

/-- A sequence of a group is on a qubit. -/
theorem ne_nil_of_mem (h : Conveys t w lines xs gs) (d : Decoupling) (qs : List Qubit)
    (hd : .act (.decoupling d) qs ∈ gs.flatten) : qs ≠ [] := by
  obtain ⟨g, hg, hmem⟩ := List.mem_flatten.mp hd
  exact (h.valid g hg d qs hmem).2

end Conveys

/-- The first of the groups takes up the outer operations; without groups they are one. -/
def absorb (outer : List Operation) : List (List Operation) → List (List Operation)
  | [] => [outer]
  | g :: gs => (outer ++ g) :: gs

theorem flatten_absorb (outer : List Operation) (gs : List (List Operation)) :
    (absorb outer gs).flatten = outer ++ gs.flatten := by
  cases gs <;> simp [absorb]

theorem length_absorb (outer : List Operation) (gs : List (List Operation)) :
    (absorb outer gs).length = max 1 gs.length := by
  cases gs <;> simp [absorb]

theorem mem_absorb {outer g : List Operation} {gs : List (List Operation)}
    (hg : g ∈ absorb outer gs) : g = outer ∨ g ∈ gs ∨ ∃ k ∈ gs, g = outer ++ k := by
  cases gs with
  | nil => exact .inl (by simpa [absorb] using hg)
  | cons k gs =>
    rcases List.mem_cons.mp hg with rfl | hg
    · exact .inr (.inr ⟨k, by simp, rfl⟩)
    · exact .inr (.inl (List.mem_cons_of_mem k hg))

/-- Lines without a barrier, followed by nested groups or by a barrier of their own. -/
theorem Plays.absorb {t : Target} {w : Wiring} {lines nested : List String}
    {ss : List Statement} {outer : List Operation} {gs : List (List Operation)}
    (hs : Spells lines ss) (hr : List.Forall₂ w.Reads ss outer) (h : Plays t w nested gs) :
    Plays t w (lines ++ nested ++ if nested = [] then [t.barrier] else [])
      (PulseScript.absorb outer gs) := by
  cases h with
  | nil =>
    rw [if_pos rfl, List.append_nil]
    exact .cons hs hr .nil
  | cons hs' hr' h =>
    rw [if_neg (by simp), List.append_nil, ← List.append_assoc]
    exact .cons (hs.append hs') (List.rel_append hr hr') h

/-- Outer operations are conveyed with nested ones, if they are apart from them. -/
theorem Conveys.absorb {t : Target} {w : Wiring} {lines nested : List String}
    {ss : List Statement} {outer xs ys : List Operation} {gs : List (List Operation)}
    (hs : Spells lines ss) (hr : List.Forall₂ w.Reads ss outer) (h : Conveys t w nested xs gs)
    (hapart : outer.Pairwise Operation.Apart)
    (hcross : ∀ g ∈ gs, ∀ x ∈ outer, ∀ y ∈ g, x.Apart y)
    (hvalid : ∀ d qs, .act (.decoupling d) qs ∈ outer → d.validate = .ok () ∧ qs ≠ [])
    (htracks : ∀ q, track q outer ++ track q xs = track q ys) :
    Conveys t w (lines ++ nested ++ if nested = [] then [t.barrier] else []) ys
      (PulseScript.absorb outer gs) := by
  refine ⟨h.plays.absorb hs hr, ?_, ?_, ?_⟩
  · intro g hg
    rcases mem_absorb hg with rfl | hg | ⟨k, hk, rfl⟩
    · exact hapart
    · exact h.apart g hg
    · exact List.pairwise_append.mpr ⟨hapart, h.apart k hk, hcross k hk⟩
  · intro g hg d qs hd
    rcases mem_absorb hg with rfl | hg | ⟨k, hk, rfl⟩
    · exact hvalid d qs hd
    · exact h.valid g hg d qs hd
    · exact (List.mem_append.mp hd).elim (hvalid d qs) (h.valid k hk d qs)
  · intro q
    rw [flatten_absorb, track_append, h.tracks q, htracks q]

/-- The actions of a moment that show are its entries and its measurements. -/
theorem Target.perm_keeps {t : Target} {ops : List Operation} (hops : ∀ op ∈ ops, op.WellFormed) :
    ((ops.filter fun op => !op.isNested).filter t.keeps).Perm
      (ops.filter t.isEntry ++ ops.filter fun op => decide (op.measured ≠ [])) := by
  have hcases : ∀ op ∈ ops, (t.isEntry op && (t.keeps op && !op.isNested)) = t.isEntry op ∧
      (!t.isEntry op && (t.keeps op && !op.isNested)) = decide (op.measured ≠ []) := by
    intro op hop
    cases hnested : op.isNested with
    | true =>
      cases op with
      | act a qs => exact absurd hnested (by simp [Operation.isNested])
      | subcircuit c n qs => simp [isEntry, Operation.measured]
    | false =>
      have hkeeps := t.keeps_iff (hops op hop) hnested
      by_cases hmeasured : op.measured = []
      · cases hentry : t.isEntry op <;> simp [hentry, hmeasured] at hkeeps ⊢ <;> simp [hkeeps]
      · obtain ⟨q, hq⟩ := List.exists_mem_of_ne_nil _ hmeasured
        have hentry : t.isEntry op = false := Shows.isEntry_eq_false_of_measured hq
        simp [hkeeps.mpr (.inr hmeasured), hentry, hmeasured]
  have hsplit := List.filter_append_perm t.isEntry ((ops.filter fun op => !op.isNested).filter t.keeps)
  simp only [List.filter_filter] at hsplit ⊢
  rw [List.filter_congr fun op hop => (hcases op hop).1,
    List.filter_congr fun op hop => (hcases op hop).2] at hsplit
  exact hsplit.symm

/-- One measurement for all looks from each qubit as the measurements do. -/
theorem Target.track_merged {t : Target} {ops : List Operation}
    (hapart : ops.Pairwise Operation.Apart) (q : Qubit) :
    track q (t.merged ops) =
      track q ((ops.filter fun op => decide (op.measured ≠ [])).map Operation.canonical) := by
  have hmem : ∀ op ∈ ops.filter (fun op => decide (op.measured ≠ [])),
      op ∈ ops ∧ .act .measure op.measured = op := by
    intro op hop
    obtain ⟨hop, hne⟩ := List.mem_filter.mp hop
    exact ⟨hop, Operation.act_measured (by simpa using hne)⟩
  have hqubits : ∀ op ∈ ops.filter (fun op => decide (op.measured ≠ [])),
      op.qubits = op.measured := by
    intro op hop
    conv_lhs => rw [← (hmem op hop).2]
    rfl
  by_cases hq : ∃ op ∈ ops, q ∈ op.measured
  · obtain ⟨op, hop, hq⟩ := hq
    have hne : op.measured ≠ [] := List.ne_nil_of_mem hq
    have hop' : op ∈ ops.filter fun op => decide (op.measured ≠ []) :=
      List.mem_filter.mpr ⟨hop, by simpa using hne⟩
    have hall : q ∈ ops.flatMap Operation.measured := List.mem_flatMap.mpr ⟨op, hop, hq⟩
    rw [track_canonical_of_mem (hapart.filter _) hop' (op.measured_subset hq),
      merged_of_ne_nil (List.ne_nil_of_mem hall), ← (hmem op hop').2,
      track_cons_of_mem ((t.byLabel_perm _).mem_iff.mpr hall)]
    rfl
  · have hnone : ∀ op ∈ ops, q ∉ op.measured := fun op hop hq' => hq ⟨op, hop, hq'⟩
    rw [track_canonical_of_notMem fun x hx => hqubits x hx ▸ hnone x (hmem x hx).1,
      track_eq_nil_iff]
    intro x hx hqx
    rw [Shows.mem_merged hx] at hqx
    obtain ⟨op, hop, hq'⟩ := List.mem_flatMap.mp ((t.byLabel_perm _).mem_iff.mp hqx)
    exact hnone op hop hq'

/-- What a moment's own lines show looks from each qubit as its actions do. -/
theorem Target.Shows.track_eq {t : Target} {ops outer : List Operation} (h : t.Shows ops outer)
    (hops : ∀ op ∈ ops, op.WellFormed) (hapart : ops.Pairwise Operation.Apart) (q : Qubit) :
    track q outer = track q (t.played (ops.filter fun op => !op.isNested)) := by
  obtain ⟨kept, rs, hperm, hechoes, rfl⟩ := h
  have hentries : track q (kept.map Operation.canonical) =
      track q ((ops.filter t.isEntry).map Operation.canonical) :=
    (track_canonical_perm hperm.symm (hapart.filter _)).symm
  have hplayed : track q (t.played (ops.filter fun op => !op.isNested)) =
      track q ((ops.filter t.isEntry ++ ops.filter fun op => decide (op.measured ≠ [])).map
        Operation.canonical) :=
    track_canonical_perm (t.perm_keeps hops) ((hapart.filter _).filter _)
  rw [track_append, track_of_echoes hechoes, hentries, t.track_merged hapart, hplayed,
    List.map_append, track_append]

theorem operationsBarriers_eq (ops : List Operation) :
    operationsBarriers ops = (ops.map operationBarriers).sum := by
  induction ops with
  | nil => rfl
  | cons op ops ih => rw [operationsBarriers, ih, List.map_cons, List.sum_cons]

/-- Only nested circuits have barriers, and their order does not matter. -/
theorem operationsBarriers_of_perm {ops subs : List Operation}
    (h : subs.Perm (ops.filter Operation.isNested)) :
    operationsBarriers subs = operationsBarriers ops := by
  rw [operationsBarriers_eq subs, (h.map operationBarriers).sum_eq]
  induction ops generalizing subs with
  | nil => rfl
  | cons op ops ih =>
    have hrest := ih (.refl _)
    cases op with
    | act a qs =>
      rw [List.filter_cons_of_neg (by simp [Operation.isNested]), hrest, operationsBarriers,
        operationBarriers, Nat.zero_add]
    | subcircuit c n qs =>
      rw [List.filter_cons_of_pos rfl, List.map_cons, List.sum_cons, hrest, operationsBarriers]

/-- Whatever is written for the circuit conveys what it is unrolled to, in as many groups as there
are barriers. -/
def Circuit.Conveyed (t : Target) (w : Wiring) (c : Circuit) : Prop :=
  ∀ lines, momentsLines t c.moments = .ok lines →
    ∃ gs, Conveys t w lines (t.played c.unrolled) gs ∧ gs.length = momentsBarriers c.moments

def NestedOf (t : Target) (x : String × Nat × Except ScriptError (List String)) (op : Operation) :
    Prop :=
  ∃ c n qs, x.2 = (n.toNat, momentsLines t c.moments) ∧ op = .subcircuit c n qs

section Nested

variable {t : Target} {w : Wiring} {ops : List Operation} {parts : List Part}

theorem nestedOf_of_parts
    (hparts : List.Forall₂ (fun op part => operationPart t op = .ok part) ops parts) :
    List.Forall₂ (NestedOf t) (parts.filterMap Part.nested?) (ops.filter Operation.isNested) := by
  induction hparts with
  | nil => exact .nil
  | cons hpart _ ih =>
    rename_i op part ops parts _
    cases op with
    | act a qs =>
      rw [List.filter_cons_of_neg (by simp [Operation.isNested]),
        List.filterMap_cons_none (nested?_of_act hpart)]
      exact ih
    | subcircuit c n qs =>
      obtain ⟨key, -, rfl⟩ := (operationPart_subcircuit_eq_ok_iff t c n qs part).mp hpart
      rw [List.filter_cons_of_pos rfl, List.filterMap_cons_some
        (show (Part.nested key n.toNat (momentsLines t c.moments)).nested? = some _ from rfl)]
      exact .cons ⟨c, n, qs, rfl, rfl⟩ ih

/-- The lines of nested circuits convey them, one after the other. -/
theorem conveys_nested {xs : List (String × Nat × Except ScriptError (List String))}
    {groups : List (List String)} {subs : List Operation} (hgroups : List.Forall₂ Repeats xs groups)
    (hsubs : List.Forall₂ (NestedOf t) xs subs)
    (ih : ∀ c n qs, .subcircuit c n qs ∈ subs → c.Conveyed t w) :
    ∃ gs, Conveys t w groups.flatten (t.played (subs.flatMap Operation.unrolled)) gs ∧
      gs.length = operationsBarriers subs := by
  induction hgroups generalizing subs with
  | nil =>
    cases hsubs
    exact ⟨[], .nil, rfl⟩
  | cons hrepeats _ ihrest =>
    rename_i x group xs groups _
    cases hsubs with
    | cons hnested hsubs =>
      rename_i op subs
      obtain ⟨rest, hrest, hrestlength⟩ := ihrest hsubs fun c n qs h => ih c n qs (List.mem_cons_of_mem _ h)
      obtain ⟨key, m, result⟩ := x
      obtain ⟨c, n, qs, hx, rfl⟩ := hnested
      obtain ⟨rfl, rfl⟩ : m = n.toNat ∧ result = momentsLines t c.moments := by simpa using hx
      have hfirst : ∃ gs, Conveys t w group (t.played (Operation.subcircuit c n qs).unrolled) gs ∧
          gs.length = operationBarriers (.subcircuit c n qs) := by
        rw [Operation.unrolled_subcircuit, Target.played_replicate,
          operationBarriers_subcircuit]
        rcases hrepeats with ⟨hzero, rfl⟩ | ⟨-, inner, hinner, rfl⟩
        · rw [show n.toNat = 0 from hzero, Nat.zero_mul]
          exact ⟨[], .nil, rfl⟩
        · obtain ⟨gs, hgs, hlength⟩ := ih c n qs (by simp) inner hinner
          exact ⟨_, hgs.replicate n.toNat, by simp [hlength]⟩
      obtain ⟨gs, hgs, hlength⟩ := hfirst
      rw [List.flatten_cons, List.flatMap_cons, Target.played_append, operationsBarriers, ← hlength,
        ← hrestlength]
      exact ⟨gs ++ rest, hgs.append hrest, List.length_append⟩

/-- A sequence that compiles is valid. -/
theorem valid_of_parts
    (hparts : List.Forall₂ (fun op part => operationPart t op = .ok part) ops parts)
    {d : Decoupling} {qs : List Qubit} (hd : .act (.decoupling d) qs ∈ ops) :
    d.validate = .ok () ∧ qs ≠ [] := by
  obtain ⟨part, -, hpart⟩ := forall₂_right_of_mem hparts hd
  have hkept : t.policy.ignoresAction (.decoupling d) = false :=
    t.policy.ignoresAction_eq_false (.inr (.inr ⟨d, rfl⟩))
  have hgives := (t.actionPart_eq_ok_iff _ qs part).mp hpart
  cases hgives with
  | ignored h => exact absurd h (by simp [hkept])
  | identity _ hr => exact absurd hr (by simp [Action.resolve?])
  | decoupling _ _ hlines => exact ⟨(Target.contextLines_isOk_iff _ _).mp ⟨_, hlines⟩, by simp⟩
  | pulse _ hr _ _ => exact absurd hr (by simp [Action.resolve?])

/-- What a moment shows is apart from what is conveyed of its nested circuits. -/
theorem Target.Shows.apart_nested {outer subs : List Operation} {lines : List String}
    {gs : List (List Operation)} (h : t.Shows ops outer) (hops : ∀ op ∈ ops, op.WellFormed)
    (hapart : ops.Pairwise Operation.Apart)
    (hsubs : ∀ sub ∈ subs, sub ∈ ops ∧ sub.isNested = true)
    (hgs : Conveys t w lines (t.played (subs.flatMap Operation.unrolled)) gs) :
    ∀ g ∈ gs, ∀ x ∈ outer, ∀ y ∈ g, x.Apart y := by
  intro g hg x hx y hy q hqx hqy
  obtain ⟨a, rs, hact, hq⟩ := h.mem_qubits hx hqx
  obtain ⟨z, hz, hqz⟩ := hgs.exists_of_mem hg hy hqy
  rw [Target.played_flatMap] at hz
  obtain ⟨sub, hsub, hz⟩ := List.mem_flatMap.mp hz
  obtain ⟨hop, hnested⟩ := hsubs sub hsub
  have hne : Operation.act a rs ≠ sub := by
    rintro rfl
    exact absurd hnested (by simp [Operation.isNested])
  exact hapart.forall hact hop hne hq (Target.qubits_of_mem_played (hops sub hop) hz hqz)

/-- A qubit sees the actions of a moment and what its nested circuits unroll to, in
whatever order the nested circuits stand. -/
theorem Target.track_nested {subs : List Operation} (hops : ∀ op ∈ ops, op.WellFormed)
    (hapart : ops.Pairwise Operation.Apart) (hperm : subs.Perm (ops.filter Operation.isNested))
    (q : Qubit) :
    track q (t.played (ops.filter fun op => !op.isNested)) ++
        track q (t.played (subs.flatMap Operation.unrolled)) =
      track q (t.played (ops.flatMap Operation.unrolled)) := by
  have hacts : (ops.filter fun op => !op.isNested).flatMap Operation.unrolled =
      ops.filter fun op => !op.isNested :=
    Operation.flatMap_unrolled_of_flat fun op hop => by simpa using (List.mem_filter.mp hop).2
  have hall : ops.Perm ((ops.filter fun op => !op.isNested) ++ subs) :=
    ((List.filter_append_perm Operation.isNested ops).symm.trans List.perm_append_comm).trans
      (hperm.symm.append_left _)
  rw [← track_append, ← Target.played_append]
  conv_lhs => rw [← hacts, ← List.flatMap_append, Target.played_flatMap]
  rw [Target.played_flatMap]
  exact (track_flatMap_perm hall hapart fun op hop y hy =>
    Target.qubits_of_mem_played (hops op hop) hy).symm

/-- The lines of a moment convey what it is unrolled to, if nested circuits are conveyed. -/
theorem Wiring.Follows.conveys_moment {qs : List Qubit} {front : List String}
    (h : w.Follows t qs) (hqs : ∀ op ∈ ops, ∀ q ∈ op.qubits, q ∈ qs)
    (hops : ∀ op ∈ ops, op.WellFormed) (hapart : ops.Pairwise Operation.Apart)
    (ih : ∀ c n rs, .subcircuit c n rs ∈ ops → c.Conveyed t w)
    (hparts : List.Forall₂ (fun op part => operationPart t op = .ok part) ops parts)
    (hfront : t.partsLines parts = .ok front) :
    ∃ gs, Conveys t w front (t.played (ops.flatMap Operation.unrolled)) gs ∧
      gs.length = max 1 (operationsBarriers ops) := by
  obtain ⟨outer, ss, hshows, hspells, hreads⟩ := h.reads_momentLines hqs hops hapart hparts
  obtain ⟨nested, hnested, rfl⟩ := (partsLines_eq_ok_iff t parts front).mp hfront
  obtain ⟨groups, hgroups, rfl⟩ := (nestedLines_eq_ok_iff parts nested).mp hnested
  -- the nested circuits are written in the order of their labels
  obtain ⟨subs, hnestedOf, hperm⟩ : ∃ subs, List.Forall₂ (NestedOf t)
      (sortByKey (parts.filterMap Part.nested?)) subs ∧ subs.Perm (ops.filter Operation.isNested) :=
    List.perm_comp_forall₂ (List.mergeSort_perm _ _) (nestedOf_of_parts hparts)
  have hsubs : ∀ sub ∈ subs, sub ∈ ops ∧ sub.isNested = true :=
    fun sub hsub => List.mem_filter.mp (hperm.mem_iff.mp hsub)
  obtain ⟨gs, hgs, hlength⟩ :=
    conveys_nested hgroups hnestedOf fun c n rs hsub => ih c n rs (hsubs _ hsub).1
  refine ⟨absorb outer gs, hgs.absorb hspells hreads (hshows.apart hapart)
    (hshows.apart_nested hops hapart hsubs hgs)
    (fun d rs hd => valid_of_parts hparts (hshows.mem_of_decoupling hd)) fun q => ?_, ?_⟩
  · rw [hshows.track_eq hops hapart q]
    exact Target.track_nested hops hapart hperm q
  · rw [length_absorb, hlength, operationsBarriers_of_perm hperm]

end Nested

/-- The lines of well-formed moments convey what they are unrolled to. -/
theorem Wiring.Follows.conveys_moments {t : Target} {w : Wiring} {qs : List Qubit}
    {ms : List Moment} {lines : List String} (h : w.Follows t qs)
    (hqs : ∀ m ∈ ms, ∀ op ∈ m.operations, ∀ q ∈ op.qubits, q ∈ qs)
    (hms : ∀ m ∈ ms, m.WellFormed)
    (ih : ∀ m ∈ ms, ∀ c n rs, .subcircuit c n rs ∈ m.operations → c.Conveyed t w)
    (hlines : momentsLines t ms = .ok lines) :
    ∃ gs, Conveys t w lines (t.played (momentsUnrolled ms)) gs ∧
      gs.length = momentsBarriers ms := by
  induction ms generalizing lines with
  | nil =>
    obtain rfl : [] = lines := by simpa [momentsLines] using hlines
    exact ⟨[], .nil, rfl⟩
  | cons m ms ihrest =>
    obtain ⟨parts, hparts, front, hfront, rest, hrest, rfl⟩ :=
      (momentsLines_cons_eq_ok_iff t m ms lines).mp hlines
    obtain ⟨gs, hgs, hlength⟩ := h.conveys_moment (hqs m (by simp)) (hms m (by simp)).each
      (hms m (by simp)).apart (ih m (by simp)) hparts hfront
    obtain ⟨hs, hhs, hrestlength⟩ := ihrest (fun k hk => hqs k (by simp [hk])) (fun k hk => hms k (by simp [hk]))
      (fun k hk => ih k (by simp [hk])) hrest
    obtain ⟨ops⟩ := m
    rw [momentsUnrolled, operationsUnrolled_eq, Target.played_append, momentsBarriers, ← hlength,
      ← hrestlength]
    exact ⟨gs ++ hs, hgs.append hhs, List.length_append⟩

/-- Well-formed circuits are conveyed, by induction over what is nested. -/
theorem Circuit.WellFormed.conveyed {t : Target} {w : Wiring} {c : Circuit} (hc : c.WellFormed)
    (hw : w.Follows t c.qubits) : c.Conveyed t w := by
  have hop : ∀ op : Operation, op.WellFormed → w.Follows t op.qubits →
      ∀ c n rs, op = .subcircuit c n rs → c.Conveyed t w := by
    intro op
    induction op with
    | act a qs => exact fun _ _ c n rs he => absurd he (by simp)
    | subcircuit c n qs ih =>
      intro hop hw d k rs he lines hlines
      obtain ⟨rfl, -, -⟩ : c = d ∧ n = k ∧ qs = rs := by simpa using he
      obtain ⟨rfl, hc⟩ := hop.nested
      have hqs : ∀ m ∈ c.moments, ∀ op ∈ m.operations, ∀ q ∈ op.qubits, q ∈ c.qubits :=
        fun m hm op hop q hq => Circuit.mem_qubits.mpr ⟨m, hm, op, hop, hq⟩
      refine Wiring.Follows.conveys_moments hw hqs hc (fun m hm d k rs hmem => ?_) hlines
      exact ih m hm _ hmem ((hc m hm).each _ hmem) (hw.mono (hqs m hm _ hmem)) d k rs rfl
  exact hop (.ofCircuit c 1) (Operation.wellFormed_ofCircuit hc 1) hw c 1 c.qubits rfl

/-- Whether sequences read back can be told from the tracks, if each is on a qubit. -/
theorem readsBack_of_tracks {xs ys : List Operation} (h : ∀ q, track q xs = track q ys)
    (hx : ∀ x ∈ xs, x.readsBack = true) (hy : ∀ d qs, .act (.decoupling d) qs ∈ ys → qs ≠ []) :
    ∀ y ∈ ys, y.readsBack = true := by
  intro y hmem
  unfold Operation.readsBack
  split
  · rename_i d qs
    obtain ⟨q, hq⟩ := List.exists_mem_of_ne_nil _ (hy d qs hmem)
    have hseen := mem_track hmem hq
    rw [← h q] at hseen
    obtain ⟨x, hx', -, hsame⟩ := exists_of_mem_track hseen
    rw [Operation.seenFrom_act (by simp)] at hsame
    obtain ⟨rs, rfl⟩ := Operation.exists_of_seenFrom_decoupling hsame
    exact hx _ hx'
  · rfl

/-- Reread operations with the same track look the same from the qubit, one by one. -/
theorem seenFrom_of_track {xs ys : List Operation} {q : Qubit}
    (h : List.Forall₂ (fun x y => x.reread? = some y) xs ys) (htrack : track q ys = track q xs) :
    List.Forall₂ (fun x y => x.reread? = some y ∧ (q ∈ x.qubits → y.seenFrom q = x.seenFrom q))
      xs ys := by
  induction h with
  | nil => exact .nil
  | cons hxy _ ih =>
    rename_i x y xs ys _
    have hqubits := Operation.qubits_of_reread? hxy
    by_cases hq : q ∈ x.qubits
    · rw [track_cons_of_mem (hqubits ▸ hq), track_cons_of_mem hq, List.cons.injEq] at htrack
      exact .cons ⟨hxy, fun _ => htrack.1⟩ (ih htrack.2)
    · rw [track_cons_of_notMem (hqubits ▸ hq), track_cons_of_notMem hq] at htrack
      exact .cons ⟨hxy, fun hq' => absurd hq' hq⟩ (ih htrack)

/-- Operations that are reread with the same tracks read back. -/
theorem readsBack_of_reread {xs ys : List Operation}
    (h : List.Forall₂ (fun x y => x.reread? = some y) xs ys)
    (htracks : ∀ q, track q ys = track q xs)
    (hne : ∀ d qs, .act (.decoupling d) qs ∈ xs → qs ≠ []) : ∀ x ∈ xs, x.readsBack = true := by
  intro x hx
  unfold Operation.readsBack
  split
  · rename_i d qs
    obtain ⟨q, hq⟩ := List.exists_mem_of_ne_nil _ (hne d qs hx)
    obtain ⟨y, -, hread, hseen⟩ := forall₂_right_of_mem (seenFrom_of_track h (htracks q)) hx
    rw [Operation.seenFrom_act (by simp)] at hseen
    obtain ⟨rs, rfl⟩ := Operation.exists_of_seenFrom_decoupling (hseen hq)
    obtain ⟨e, he, hsame⟩ := Option.map_eq_some_iff.mp hread
    obtain ⟨rfl, -⟩ : e = d ∧ qs = rs := by simpa using hsame
    exact decide_eq_true ((Decoupling.reread?_eq_some_self_iff e).mp (Option.filter_eq_some_iff.mp he).1)
  · rfl

theorem forall₂_of_rereadMoments? {gs rs : List (List Operation)}
    (h : rereadMoments? gs = some rs) :
    List.Forall₂ (fun x y => x.reread? = some y) gs.flatten rs.flatten :=
  List.rel_flatten (((mapM_eq_some_iff _ gs rs).mp h).imp fun ops zs hops =>
    (mapM_eq_some_iff _ ops zs).mp hops)

/-- A script is read only if every conveyed sequence can be reread. -/
theorem Conveys.exists_reread {t : Target} {w : Wiring} {lines : List String}
    {xs : List Operation} {gs rs : List (List Operation)} (h : Conveys t w lines xs gs)
    (hrs : rereadMoments? gs = some rs) {d : Decoupling} {q : Qubit}
    (hd : .act (.decoupling d) [q] ∈ xs) :
    ∃ r, (Operation.act (.decoupling d) [q]).reread? = some r := by
  have hseen := mem_track hd (List.mem_singleton.mpr rfl)
  rw [← h.tracks q] at hseen
  obtain ⟨x, hx, -, hsame⟩ := exists_of_mem_track hseen
  rw [Operation.seenFrom_act (by simp)] at hsame
  obtain ⟨qs, rfl⟩ := Operation.exists_of_seenFrom_decoupling hsame
  obtain ⟨r, -, hr⟩ := forall₂_right_of_mem (forall₂_of_rereadMoments? hrs) hx
  obtain ⟨e, he, -⟩ := Option.map_eq_some_iff.mp hr
  exact ⟨_, Option.map_eq_some_iff.mpr ⟨e, he, rfl⟩⟩

theorem Circuit.operations_ofGroups (gs : List (List Operation)) :
    (Circuit.mk (gs.map Moment.mk)).operations = gs.flatten := by
  rw [operations, List.flatMap_map]
  exact List.flatMap_id

/-- A sequence that shows is on a qubit. -/
theorem Circuit.WellFormed.ne_nil_of_mem_played {t : Target} {c : Circuit} (hc : c.WellFormed)
    {d : Decoupling} {qs : List Qubit} (h : .act (.decoupling d) qs ∈ t.played c.unrolled) :
    qs ≠ [] := by
  obtain ⟨x, hx, -, hcanonical⟩ := Target.mem_played h
  have hwhole : x ∈ (Operation.ofCircuit c 1).unrolled := by
    rw [Operation.ofCircuit, Operation.unrolled_subcircuit]
    simpa using hx
  obtain ⟨hwell, -⟩ := (Operation.wellFormed_ofCircuit hc 1).of_mem_unrolled hwhole
  cases hwell with
  | subcircuit => exact absurd hcanonical (by simp [Operation.canonical])
  | @act a rs htakes =>
    obtain ⟨ha, rfl⟩ : a.canonical = .decoupling d ∧ rs = qs := by
      simpa [Operation.canonical] using hcanonical
    obtain rfl : a = .decoupling d := by
      rcases a.canonical_cases with hsame | ⟨g, hg⟩
      · rw [← hsame, ha]
      · exact absurd (hg.symm.trans ha) (by simp)
    obtain ⟨q, rfl⟩ := htakes
    simp

/-- A compiled circuit is conveyed by groups, one for each barrier, and its script is read as what
a reader makes of them. -/
theorem Circuit.Built.exists_conveys_barriers {t : Target} {w : Wiring} {c : Circuit} {s : String}
    (hbuilt : c.Built) (hw : w.Follows t c.qubits) (hnames : t.NamesAgents)
    (hs : c.toScript t = .ok s) :
    ∃ lines gs, (Conveys t w lines (t.played c.unrolled) gs ∧
      gs.length = momentsBarriers c.moments) ∧
      (Circuit.ofScript w none s).toOption =
        (rereadMoments? gs).map fun ms => ⟨ms.map Moment.mk⟩ := by
  obtain ⟨-, -, lines, hlines, rfl⟩ := (toScript_eq_ok_iff t c s).mp hs
  obtain ⟨gs, hgs, hlength⟩ := hbuilt.wellFormed.conveyed hw lines hlines
  exact ⟨lines, gs, ⟨hgs, hlength⟩, hgs.plays.ofScript hnames hgs.apart⟩

theorem Circuit.Built.exists_conveys {t : Target} {w : Wiring} {c : Circuit} {s : String}
    (hbuilt : c.Built) (hw : w.Understands t c.qubits) (hs : c.toScript t = .ok s) :
    ∃ lines gs, Conveys t w lines (t.played c.unrolled) gs ∧
      (Circuit.ofScript w none s).toOption =
        (rereadMoments? gs).map fun ms => ⟨ms.map Moment.mk⟩ := by
  have hnames : t.NamesAgents := .of_words ((toScript_eq_ok_iff t c s).mp hs).1 hw.agents
  obtain ⟨lines, gs, ⟨hgs, -⟩, hscript⟩ := hbuilt.exists_conveys_barriers hw.toFollows hnames hs
  exact ⟨lines, gs, hgs, hscript⟩

/-- A compiled circuit is read back with every qubit's operations in the order of the unrolled
circuit, without what is ignored or changes nothing and each in the form of its instruction,
exactly if the durations of the decoupling sequences among them read back as they were. -/
theorem Circuit.ofScript_toScript_tracks_iff (t : Target) (w : Wiring) (c : Circuit) (s : String)
    (hbuilt : c.Built) (hw : w.Understands t c.qubits) (hs : c.toScript t = .ok s) :
    (∃ d, Circuit.ofScript w none s = .ok d ∧
      ∀ q, track q d.operations = track q (t.played c.unrolled)) ↔
      ∀ op ∈ t.played c.unrolled, op.readsBack = true := by
  obtain ⟨lines, gs, hgs, hscript⟩ := hbuilt.exists_conveys hw hs
  constructor
  · rintro ⟨d, hd, htracks⟩
    rw [hd] at hscript
    obtain ⟨rs, hrs, rfl⟩ := Option.map_eq_some_iff.mp hscript.symm
    have hback : ∀ x ∈ gs.flatten, x.readsBack = true := by
      refine readsBack_of_reread (forall₂_of_rereadMoments? hrs) (fun q => ?_) hgs.ne_nil_of_mem
      rw [← operations_ofGroups rs, htracks q, hgs.tracks q]
    exact readsBack_of_tracks hgs.tracks hback fun d qs hmem =>
      hbuilt.wellFormed.ne_nil_of_mem_played hmem
  · intro hback
    have hall : ∀ x ∈ gs.flatten, x.readsBack = true :=
      readsBack_of_tracks (fun q => (hgs.tracks q).symm) hback hgs.ne_nil_of_mem
    have hself : rereadMoments? gs = some gs := by
      refine rereadMoments?_eq_self fun g hg x hx => ?_
      refine Operation.reread?_eq_self (hall x (List.mem_flatten.mpr ⟨g, hg, hx⟩)) ?_
      rintro d qs rfl
      exact (hgs.valid g hg d qs hx).1
    rw [hself] at hscript
    refine ⟨_, (toOption_eq_some_iff _ _).mp hscript, fun q => ?_⟩
    rw [operations_ofGroups, hgs.tracks q]

def Circuit.echoStep : Circuit := ⟨[⟨[.ofDecoupling .shortEcho ⟨1⟩]⟩, ⟨[.x ⟨1⟩]⟩]⟩

def Circuit.pairLoop : Circuit :=
  ⟨[⟨[.onCoupler [⟨1⟩, ⟨0⟩]]⟩, ⟨[.act .measure [⟨0⟩], .ofCircuit .echoStep 2]⟩]⟩

theorem Circuit.built_pairLoop : pairLoop.Built := by
  have hcz : Operation.Built (.onCoupler [⟨1⟩, ⟨0⟩]) :=
    .gate (show Operation.ofGate (.standard .cz) [⟨1⟩, ⟨0⟩] = .ok _ from rfl)
  have hmeasure : Operation.Built (.act .measure [⟨0⟩]) :=
    .measure (show Operation.ofMeasure [⟨0⟩] = .ok _ from rfl)
  have hx : Operation.Built (.x ⟨1⟩) :=
    .gate (show Operation.ofGate (.standard .x) [⟨1⟩] = .ok _ from rfl)
  have hstep : Operation.Built (.ofCircuit echoStep 2) := by
    refine .circuit _ 2 ?_
    simpa [echoStep] using
      ⟨Moment.built_singleton (.decoupling .shortEcho ⟨1⟩), Moment.built_singleton hx⟩
  have hqubits : echoStep.qubits = [⟨1⟩] := by decide +kernel
  have hbeside : Moment.Built ⟨[.act .measure [⟨0⟩], .ofCircuit echoStep 2]⟩ := by
    refine .push (Moment.built_singleton hmeasure) hstep ((Moment.push_eq_ok_iff _ _ _).mpr ⟨?_, rfl⟩)
    simp [Operation.Apart, Operation.ofCircuit, Operation.qubits, hqubits]
  simpa [Circuit.Built, pairLoop] using ⟨Moment.built_singleton hcz, hbeside⟩

theorem Circuit.ofScript_toScript_pairLoop :
    ∃ s d, pairLoop.toScript .joinedPair = .ok s ∧ Circuit.ofScript .joinedPair none s = .ok d ∧
      ∀ q, track q d.operations = track q (Target.joinedPair.played pairLoop.unrolled) := by
  have hqubits : pairLoop.qubits = [⟨0⟩, ⟨1⟩] := by decide +kernel
  have hsome : (pairLoop.toScript .joinedPair).toOption.isSome = true := by decide +kernel
  have hback : (Target.joinedPair.played pairLoop.unrolled).all Operation.readsBack = true := by
    decide +kernel
  obtain ⟨s, hs⟩ := Option.isSome_iff_exists.mp hsome
  have hscript := (toOption_eq_some_iff _ _).mp hs
  obtain ⟨d, hd, htracks⟩ := (ofScript_toScript_tracks_iff .joinedPair .joinedPair pairLoop s
    built_pairLoop (hqubits ▸ Wiring.understands_joinedPair) hscript).mpr (List.all_eq_true.mp hback)
  exact ⟨s, d, hscript, hd, htracks⟩

/-- Two pulses of 50 nanoseconds in the least duration above 100. -/
def Decoupling.tightEcho : Decoupling :=
  ⟨.xy, 1, .finite false 7036874417766401 (-46) (by decide), .ofNat 50⟩

def Circuit.tightEcho : Circuit := ⟨[⟨[.ofDecoupling .tightEcho ⟨0⟩]⟩]⟩

/-- The tight sequence compiles, but its duration is read as 100, which leaves no time
between the pulses, and the script is refused. -/
theorem Circuit.ofScript_toScript_tightEcho :
    tightEcho.Built ∧ Wiring.joinedPair.Understands .joinedPair tightEcho.qubits ∧
      ∃ s, tightEcho.toScript .joinedPair = .ok s ∧
        ¬ ∃ d, Circuit.ofScript .joinedPair none s = .ok d := by
  have hbuilt : tightEcho.Built := by
    intro m hm
    rw [List.mem_singleton.mp hm]
    exact Moment.built_singleton (.decoupling _ _)
  have hknown : ∀ q ∈ tightEcho.qubits, q ∈ [⟨0⟩, ⟨1⟩] := by decide +kernel
  have hsome : (tightEcho.toScript .joinedPair).toOption.isSome = true := by decide +kernel
  obtain ⟨s, hs⟩ := Option.isSome_iff_exists.mp hsome
  have hs := (toOption_eq_some_iff _ _).mp hs
  have hw : Wiring.joinedPair.Understands .joinedPair tightEcho.qubits :=
    ⟨Wiring.understands_joinedPair.mono hknown, Wiring.understands_joinedPair.agents⟩
  refine ⟨hbuilt, hw, s, hs, ?_⟩
  rintro ⟨d, hd⟩
  obtain ⟨lines, gs, hgs, hscript⟩ := hbuilt.exists_conveys hw hs
  rw [hd] at hscript
  obtain ⟨rs, hrs, -⟩ := Option.map_eq_some_iff.mp hscript.symm
  have hplayed : Target.joinedPair.played tightEcho.unrolled =
      [.ofDecoupling .tightEcho ⟨0⟩] := rfl
  obtain ⟨r, hr⟩ := hgs.exists_reread hrs (hplayed ▸ List.mem_singleton.mpr rfl)
  have hnone : (Operation.ofDecoupling .tightEcho ⟨0⟩).reread?.isNone = true := by decide +kernel
  exact absurd hnone (by simp [Operation.ofDecoupling, hr])

end PulseScript
