import Mathlib
import PulseScript.Proofs.MomentLines
import PulseScript.Proofs.RoundTrip

/-!
# The order of operations in a moment

A moment is a time slice, so the order in which its operations were added means nothing, and
the script does not show it. The sort keys of two operations are labels of different qubits
and differ, except for nested circuits without qubits, of which nothing is seen but
barriers. The operands of the gate on a coupler may be exchanged too.
-/
namespace PulseScript

/-- The same operation but for the order of operations within the moments of nested circuits
and of the operands of gates on couplers. -/
inductive Operation.Rearranged : Operation → Operation → Prop where
  | same (op : Operation) : Rearranged op op
  | swapped (p q : Qubit) :
    Rearranged (.act (.gate (.standard .cz)) [p, q]) (.act (.gate (.standard .cz)) [q, p])
  | nested {c d : Circuit} {n : UInt32} {qs : List Qubit} {groups : List (List Operation)}
    (order : List.Forall₂ (fun m ops => m.operations.Perm ops) c.moments groups)
    (each : List.Forall₂ (fun ops m => List.Forall₂ Rearranged ops m.operations) groups d.moments) :
    Rearranged (.subcircuit c n qs) (.subcircuit d n qs)

/-- The operations of a moment in another order, each rearranged. -/
def Moment.Rearranged (m m' : Moment) : Prop :=
  ∃ ops, m.operations.Perm ops ∧ List.Forall₂ Operation.Rearranged ops m'.operations

def Circuit.Rearranged (c d : Circuit) : Prop := List.Forall₂ Moment.Rearranged c.moments d.moments

theorem Circuit.Rearranged.refl (c : Circuit) : c.Rearranged c :=
  List.forall₂_same.mpr fun _ _ => ⟨_, .refl _, List.forall₂_same.mpr fun op _ => .same op⟩

theorem Operation.rearranged_subcircuit_iff (c : Circuit) (n : UInt32) (qs : List Qubit)
    (y : Operation) :
    (Operation.subcircuit c n qs).Rearranged y ↔ ∃ d, c.Rearranged d ∧ y = .subcircuit d n qs := by
  constructor
  · intro h
    cases h with
    | same => exact ⟨c, .refl c, rfl⟩
    | nested order each =>
      exact ⟨_, (exists_forall₂_trans_iff _ _ _ _).mp ⟨_, order, each⟩, rfl⟩
  · rintro ⟨d, hd, rfl⟩
    obtain ⟨groups, order, each⟩ := (exists_forall₂_trans_iff _ _ _ _).mpr hd
    exact .nested order each

/-- What holds of some operation of a circuit holds of some operation of the other, if
rearranging does not change it. -/
theorem Circuit.Rearranged.exists_iff {c d : Circuit} (h : c.Rearranged d) {P : Operation → Prop}
    (hP : ∀ m ∈ c.moments, ∀ op ∈ m.operations, ∀ y, op.Rearranged y → (P op ↔ P y)) :
    (∃ m ∈ c.moments, ∃ op ∈ m.operations, P op) ↔ ∃ m ∈ d.moments, ∃ y ∈ m.operations, P y := by
  constructor
  · rintro ⟨m, hm, op, hop, hp⟩
    obtain ⟨m', hm', ops, horder, heach⟩ := forall₂_right_of_mem h hm
    obtain ⟨y, hy, hr⟩ := forall₂_right_of_mem heach (horder.mem_iff.mp hop)
    exact ⟨m', hm', y, hy, (hP m hm op hop y hr).mp hp⟩
  · rintro ⟨m', hm', y, hy, hp⟩
    obtain ⟨m, hm, ops, horder, heach⟩ := forall₂_left_of_mem h hm'
    obtain ⟨op, hop, hr⟩ := forall₂_left_of_mem heach hy
    have hop := horder.mem_iff.mpr hop
    exact ⟨m, hm, op, hop, (hP m hm op hop y hr).mpr hp⟩

theorem Operation.Rearranged.mem_qubits {x y : Operation} (h : x.Rearranged y) (q : Qubit) :
    q ∈ x.qubits ↔ q ∈ y.qubits := by
  cases h with
  | same => rfl
  | swapped p q => simp [qubits, or_comm]
  | nested => rfl

theorem Qubit.sorted_congr {qs rs : List Qubit} (h : ∀ q, q ∈ qs ↔ q ∈ rs) :
    Qubit.sorted qs = Qubit.sorted rs := by
  have hset : Std.ExtTreeSet.ofList qs = Std.ExtTreeSet.ofList rs :=
    Std.ExtTreeSet.ext_mem fun q => by simpa using h q
  rw [sorted, sorted, hset]

namespace Circuit.Rearranged

variable {c d : Circuit}

theorem mem_qubits (h : c.Rearranged d) (q : Qubit) : q ∈ c.qubits ↔ q ∈ d.qubits := by
  rw [Circuit.mem_qubits, Circuit.mem_qubits]
  exact h.exists_iff fun _ _ _ _ _ hr => hr.mem_qubits q

/-- A nested circuit that is rearranged is on the qubits that it was on, so that it is what
would be built from the rearranged circuit. -/
theorem ofCircuit (h : c.Rearranged d) (n : UInt32) :
    (Operation.ofCircuit c n).Rearranged (.ofCircuit d n) := by
  have hqubits : c.qubits = d.qubits := Qubit.sorted_congr fun q => by
    simpa [Circuit.qubits] using h.mem_qubits q
  rw [Operation.ofCircuit, Operation.ofCircuit, ← hqubits]
  exact (Operation.rearranged_subcircuit_iff c n _ _).mpr ⟨d, h, rfl⟩

end Circuit.Rearranged

theorem Target.minLabel_comm (a b : String) : minLabel a b = minLabel b a := by
  unfold minLabel
  split_ifs with hba hab
  · exact absurd hab (String.lt_asymm hba)
  · rfl
  · rfl
  · exact String.le_antisymm (String.not_lt.mp hba) (String.not_lt.mp ‹_›)

theorem Target.Gives.swap {t : Target} {p q : Qubit} {part : Part}
    (h : t.Gives (.gate (.standard .cz)) [p, q] part) :
    t.Gives (.gate (.standard .cz)) [q, p] part := by
  cases h with
  | ignored h => exact .ignored h
  | identity h hr => exact .identity h hr
  | coupled h hp hq hr hn =>
    rw [minLabel_comm]
    exact .coupled h hq hp hr (CouplerRegistry.nameFor?_comm _ _ _ ▸ hn)

/-- Whether couplers are needed does not depend on the order. -/
theorem operationNeedsCouplers_of_rearranged (p : IgnorePolicy) {x y : Operation}
    (h : x.Rearranged y) : operationNeedsCouplers p x = operationNeedsCouplers p y := by
  induction x generalizing y with
  | act a qs => cases h <;> rfl
  | subcircuit c n qs ih =>
    obtain ⟨d, hd, rfl⟩ := (Operation.rearranged_subcircuit_iff c n qs y).mp h
    obtain ⟨ms⟩ := c
    obtain ⟨ns⟩ := d
    rw [operationNeedsCouplers, operationNeedsCouplers, Bool.eq_iff_iff, momentsNeedCouplers_iff,
      momentsNeedCouplers_iff]
    exact hd.exists_iff fun m hm op hop y hr => by rw [ih m hm op hop hr]

theorem Circuit.Rearranged.needsCouplers {c d : Circuit} (h : c.Rearranged d) (p : IgnorePolicy) :
    c.needsCouplers p = d.needsCouplers p := by
  rw [Circuit.needsCouplers, Circuit.needsCouplers, Bool.eq_iff_iff, momentsNeedCouplers_iff,
    momentsNeedCouplers_iff]
  exact h.exists_iff fun m hm op hop y hr => by rw [operationNeedsCouplers_of_rearranged p hr]

namespace Target

variable {t : Target}

structure Distinguishes (t : Target) (qs : List Qubit) : Prop where
  inj : ∀ p ∈ qs, ∀ q ∈ qs, ∀ l, t.labelOf? p = some l → t.labelOf? q = some l → p = q
  ne_empty : ∀ q ∈ qs, t.labelOf? q ≠ some ""

theorem Distinguishes.mono {qs rs : List Qubit} (h : t.Distinguishes qs)
    (hsub : ∀ q ∈ rs, q ∈ qs) : t.Distinguishes rs :=
  ⟨fun p hp q hq => h.inj p (hsub p hp) q (hsub q hq), fun q hq => h.ne_empty q (hsub q hq)⟩

/-- The smaller label is one of the two. -/
theorem minLabel_mem (a b : String) : minLabel a b = a ∨ minLabel a b = b := by
  unfold minLabel
  split_ifs
  · exact .inr rfl
  · exact .inl rfl

theorem foldl_minLabel_mem (l : String) (ls : List String) : ls.foldl minLabel l ∈ l :: ls := by
  induction ls generalizing l with
  | nil => simp
  | cons k ls ih =>
    rw [List.foldl_cons]
    rcases List.mem_cons.mp (ih (minLabel l k)) with h | h
    · rw [h]
      rcases minLabel_mem l k with h | h <;> simp [h]
    · simp [h]

/-- The smallest label is the label of one of the qubits. Without qubits it is the empty text. -/
theorem smallestLabel_eq_ok {qs : List Qubit} {key : String} (h : t.smallestLabel qs = .ok key) :
    (qs = [] ∧ key = "") ∨ ∃ q ∈ qs, t.labelOf? q = some key := by
  simp only [smallestLabel, bind_eq_ok_iff, mapM_label_eq_ok_iff] at h
  obtain ⟨ls, hls, hkey⟩ := h
  cases ls with
  | nil =>
    obtain rfl := List.forall₂_nil_right_iff.mp hls
    obtain rfl : "" = key := by simpa [pure_eq_ok_iff] using hkey
    exact .inl ⟨rfl, rfl⟩
  | cons l ls =>
    obtain rfl : ls.foldl minLabel l = key := by simpa [pure_eq_ok_iff] using hkey
    exact .inr (forall₂_left_of_mem hls (foldl_minLabel_mem l ls))

end Target

structure Part.Bare (t : Target) (p : Part) : Prop where
  entry : p.entry? = none
  labels : p.labels = []
  block : ∀ x, p.block? = some x → ∀ l ∈ x.2, l = t.barrier

structure Part.Commutes (p q : Part) : Prop where
  entry : ∀ x, p.entry? = some x → ∀ y, q.entry? = some y → Commuting x y
  block : ∀ x, p.block? = some x → ∀ y, q.block? = some y → Commuting x y

namespace Target

variable {t : Target}

theorem eq_barrier_of_mem_written {parts : List Part} (h : ∀ p ∈ parts, p.Bare t) :
    ∀ l ∈ t.written parts, l = t.barrier := by
  have hentries : entryLines parts = [] := by
    rw [entryLines, List.filterMap_eq_nil_iff.mpr fun p hp => (h p hp).entry, sortByKey,
      List.mergeSort_nil, List.flatMap_nil]
  have hmeasured : measureLines parts = [] := by
    rw [measureLines, List.flatMap_eq_nil_iff.mpr fun p hp => (h p hp).labels, List.mergeSort_nil]
  have hblocks : ∀ l ∈ blockLines parts, l = t.barrier := by
    intro l hl
    obtain ⟨x, hx, hlx⟩ := List.mem_flatMap.mp hl
    obtain ⟨p, hp, hpx⟩ := List.mem_filterMap.mp ((sortByKey_perm _).mem_iff.mp hx)
    exact (h p hp).block x hpx l hlx
  intro l hl
  rw [written, hentries, hmeasured, List.nil_append, List.nil_append, List.mem_append] at hl
  rcases hl with hl | hl
  · exact hblocks l hl
  · split_ifs at hl
    · exact List.mem_singleton.mp hl
    · exact absurd hl (by simp)

theorem eq_barrier_of_mem_momentsLines {ms : List Moment} {lines : List String}
    (hops : ∀ m ∈ ms, ∀ op ∈ m.operations, ∀ p, t.settled? op = some p → p.Bare t)
    (h : momentsLines t ms = .ok lines) : ∀ l ∈ lines, l = t.barrier := by
  induction ms generalizing lines with
  | nil =>
    obtain rfl : [] = lines := by simpa [momentsLines] using h
    simp
  | cons m ms ih =>
    obtain ⟨_, ⟨parts, hparts, rfl⟩, rest, hrest, rfl⟩ :=
      (momentsLines_cons_eq_ok_iff_lays m ms lines).mp h
    obtain ⟨hfirst, hall⟩ := List.forall_mem_cons.mp hops
    intro l hl
    rcases List.mem_append.mp hl with hl | hl
    · refine eq_barrier_of_mem_written (fun p hp => ?_) l hl
      obtain ⟨op, hop, hsettled⟩ := forall₂_left_of_mem hparts hp
      exact hfirst op hop p hsettled
    · exact ih hall hrest l hl

/-- An operation without qubits shows nothing but barriers. -/
theorem bare_of_qubits_eq_nil {op : Operation} (hop : op.WellFormed) (hnil : op.qubits = [])
    {p : Part} (hp : t.settled? op = some p) : p.Bare t := by
  induction op generalizing p with
  | act a qs =>
    obtain rfl : qs = [] := hnil
    cases (settled?_act_eq_some_iff a [] p).mp hp with
    | measure _ hl =>
      obtain rfl := List.forall₂_nil_left_iff.mp hl
      exact ⟨rfl, rfl, by simp [Part.block?, Part.nested?]⟩
    | _ => exact ⟨rfl, rfl, by simp [Part.block?, Part.nested?]⟩
  | subcircuit c n qs ih =>
    obtain ⟨rfl, hc⟩ := hop.nested
    have hempty : ∀ m ∈ c.moments, ∀ op ∈ m.operations, op.qubits = [] := by
      intro m hm op hop
      rw [List.eq_nil_iff_forall_not_mem]
      intro q hq
      have hmem : q ∈ c.qubits := Circuit.mem_qubits.mpr ⟨m, hm, op, hop, hq⟩
      rw [show c.qubits = [] from hnil] at hmem
      exact absurd hmem (by simp)
    obtain ⟨key, -, ⟨-, rfl⟩ | ⟨-, inner, hinner, rfl⟩⟩ :=
      (settled?_subcircuit_eq_some_iff c n _ p).mp hp
    · exact ⟨rfl, rfl, by simp⟩
    · refine ⟨rfl, rfl, ?_⟩
      have hlines := eq_barrier_of_mem_momentsLines
        (fun m hm op hop p hp => ih m hm op hop ((hc m hm).each op hop) (hempty m hm op hop) hp) hinner
      simpa using fun l _ hl => hlines l hl

/-- The sort key of what an operation adds is the label of one of its qubits. Otherwise the key
is the empty text, and nothing but barriers stands under it. -/
theorem key_of_settled {op : Operation} (hop : op.WellFormed) {p : Part}
    (hp : t.settled? op = some p) {x : String × List String}
    (hx : p.entry? = some x ∨ p.block? = some x) :
    (∃ q ∈ op.qubits, t.labelOf? q = some x.1) ∨ (x.1 = "" ∧ ∀ l ∈ x.2, l = t.barrier) := by
  cases op with
  | act a qs =>
    refine .inl ?_
    have hgives := (settled?_act_eq_some_iff a qs p).mp hp
    have hentry : p.entry? = some x := by
      refine hx.resolve_right fun hblock => ?_
      cases hgives <;> simp [Part.block?, Part.nested?] at hblock
    cases hgives with
    | decoupling _ hl _ | pulse _ _ _ hl | idle _ hl =>
      obtain rfl := Option.some.inj hentry
      exact ⟨_, List.mem_singleton.mpr rfl, hl⟩
    | @coupled p q lp lq _ _ _ hlp hlq _ _ =>
      obtain rfl := Option.some.inj hentry
      rcases minLabel_mem lp lq with h | h
      · exact ⟨p, by simp [Operation.qubits], by rw [h, hlp]⟩
      · exact ⟨q, by simp [Operation.qubits], by rw [h, hlq]⟩
    | _ => exact absurd hentry (by simp [Part.entry?])
  | subcircuit c n qs =>
    obtain ⟨key, hkey, hcases⟩ := (settled?_subcircuit_eq_some_iff c n qs p).mp hp
    have hblock : p.block? = some x := by
      refine hx.resolve_left fun hentry => ?_
      rcases hcases with ⟨-, rfl⟩ | ⟨-, inner, -, rfl⟩ <;> simp [Part.entry?] at hentry
    obtain rfl : key = x.1 := by
      rcases hcases with ⟨-, rfl⟩ | ⟨-, inner, -, rfl⟩ <;>
        exact congrArg Prod.fst (Option.some.inj hblock)
    rcases smallestLabel_eq_ok hkey with ⟨rfl, hempty⟩ | hlabel
    · exact .inr ⟨hempty, (bare_of_qubits_eq_nil hop rfl hp).block x hblock⟩
    · exact .inl hlabel

/-- What two operations without a common qubit add may stand in either order where the sort
keys do not decide. -/
theorem commutes_of_apart {x y : Operation} (hx : x.WellFormed) (hy : y.WellFormed)
    (hapart : x.Apart y) {qs : List Qubit} (ht : t.Distinguishes qs) (hxs : ∀ q ∈ x.qubits, q ∈ qs)
    (hys : ∀ q ∈ y.qubits, q ∈ qs) {p r : Part} (hp : t.settled? x = some p)
    (hr : t.settled? y = some r) : p.Commutes r := by
  have hcomm : ∀ a b : String × List String, p.entry? = some a ∨ p.block? = some a →
      r.entry? = some b ∨ r.block? = some b → Commuting a b := by
    intro a b ha hb hab
    rcases key_of_settled hx hp ha with ⟨q, hq, hl⟩ | ⟨hempty, hbare⟩
    · rcases key_of_settled hy hr hb with ⟨q', hq', hl'⟩ | ⟨hempty, -⟩
      · obtain rfl := ht.inj q (hxs q hq) q' (hys q' hq') a.1 hl (hab ▸ hl')
        exact absurd hq' (hapart hq)
      · exact absurd (hl.trans (by rw [hab, hempty])) (ht.ne_empty q (hxs q hq))
    · rcases key_of_settled hy hr hb with ⟨q, hq, hl⟩ | ⟨-, hbare'⟩
      · exact absurd (hl.trans (by rw [← hab, hempty])) (ht.ne_empty q (hys q hq))
      · rw [List.eq_replicate_of_mem hbare, List.eq_replicate_of_mem hbare',
          List.replicate_append_replicate, List.replicate_append_replicate, Nat.add_comm]
  exact ⟨fun a ha b hb => hcomm a b (.inl ha) (.inl hb),
    fun a ha b hb => hcomm a b (.inr ha) (.inr hb)⟩

/-- Parts of which the lines under the same key commute are written in one way, whatever
their order is. -/
theorem written_perm {parts parts' : List Part} (h : parts.Perm parts')
    (hcomm : parts.Pairwise Part.Commutes) : t.written parts = t.written parts' := by
  have hentries : entryLines parts = entryLines parts' :=
    flatMap_sortByKey_of_perm (h.filterMap Part.entry?)
      (List.pairwise_filterMap.mpr (hcomm.imp Part.Commutes.entry))
  have hblocks : blockLines parts = blockLines parts' :=
    flatMap_sortByKey_of_perm (h.filterMap Part.block?)
      (List.pairwise_filterMap.mpr (hcomm.imp Part.Commutes.block))
  have hlabels := mergeSort_eq_of_perm (h.flatMap_right Part.labels)
  have hmeasured : measureLines parts = measureLines parts' := by
    rw [measureLines, measureLines, hlabels]
  rw [written, written, hentries, hmeasured, hblocks]

/-- Operations that are apart have the same lines in any order. -/
theorem Lays.perm {ops ops' : List Operation} {lines : List String} (h : t.Lays ops lines)
    (hperm : ops.Perm ops') (hwell : ∀ op ∈ ops, op.WellFormed)
    (hapart : ops.Pairwise Operation.Apart) {qs : List Qubit} (ht : t.Distinguishes qs)
    (hqs : ∀ op ∈ ops, ∀ q ∈ op.qubits, q ∈ qs) : t.Lays ops' lines := by
  obtain ⟨parts, hparts, rfl⟩ := h
  obtain ⟨parts', hparts', hperm'⟩ := List.perm_comp_forall₂ hperm.symm hparts
  have hcomm : parts.Pairwise Part.Commutes := by
    clear hparts' hperm' hperm
    induction hparts with
    | nil => exact .nil
    | @cons x p ops parts hp hrest ih =>
      obtain ⟨hx, hwell⟩ := List.forall_mem_cons.mp hwell
      obtain ⟨hxs, hqs⟩ := List.forall_mem_cons.mp hqs
      obtain ⟨hfirst, hapart⟩ := List.pairwise_cons.mp hapart
      refine List.pairwise_cons.mpr ⟨fun r hr => ?_, ih hwell hapart hqs⟩
      obtain ⟨y, hy, hyr⟩ := forall₂_left_of_mem hrest hr
      exact commutes_of_apart hx (hwell y hy) (hfirst y hy) ht hxs (hqs y hy) hp hyr
  exact ⟨parts', hparts', written_perm hperm'.symm hcomm⟩

theorem lays_iff_of_perm {ops ops' : List Operation} (hperm : ops.Perm ops')
    (hwell : ∀ op ∈ ops, op.WellFormed) (hapart : ops.Pairwise Operation.Apart) {qs : List Qubit}
    (ht : t.Distinguishes qs) (hqs : ∀ op ∈ ops, ∀ q ∈ op.qubits, q ∈ qs) (lines : List String) :
    t.Lays ops lines ↔ t.Lays ops' lines := by
  have hback : ∀ op ∈ ops', op ∈ ops := fun op hop => hperm.mem_iff.mpr hop
  exact ⟨fun h => h.perm hperm hwell hapart ht hqs,
    fun h => h.perm hperm.symm (fun op hop => hwell op (hback op hop)) (hperm.pairwise hapart Operation.Apart.symm)
      ht fun op hop => hqs op (hback op hop)⟩

/-- Rearranged moments have the same lines if rearranged operations add the same. -/
theorem momentsLines_eq_ok_iff_of_rearranged {ms ns : List Moment}
    (h : List.Forall₂ Moment.Rearranged ms ns) (hwell : ∀ m ∈ ms, m.WellFormed) {qs : List Qubit}
    (ht : t.Distinguishes qs) (hqs : ∀ m ∈ ms, ∀ op ∈ m.operations, ∀ q ∈ op.qubits, q ∈ qs)
    (hops : ∀ m ∈ ms, ∀ op ∈ m.operations, ∀ y, op.Rearranged y → t.settled? op = t.settled? y)
    (lines : List String) : momentsLines t ms = .ok lines ↔ momentsLines t ns = .ok lines := by
  induction h generalizing lines with
  | nil => rfl
  | @cons m m' ms ns hm _ ih =>
    obtain ⟨hfirst, hwell⟩ := List.forall_mem_cons.mp hwell
    obtain ⟨hqubits, hqs⟩ := List.forall_mem_cons.mp hqs
    obtain ⟨hsettled, hops⟩ := List.forall_mem_cons.mp hops
    obtain ⟨ops, horder, heach⟩ := hm
    have hmoment : ∀ front, t.Lays m.operations front ↔ t.Lays m'.operations front := by
      intro front
      rw [lays_iff_of_perm horder hfirst.each hfirst.apart ht hqubits]
      exact lays_iff_of_settled (forall₂_imp_of_mem heach fun op hop y hr =>
        hsettled op (horder.mem_iff.mpr hop) y hr) front
    simp only [momentsLines_cons_eq_ok_iff_lays, hmoment, ih hwell hqs hops]

/-- A rearranged operation adds the same. -/
theorem settled?_eq_of_rearranged {op y : Operation} (h : op.Rearranged y)
    (hop : op.WellFormed) (ht : t.Distinguishes op.qubits) : t.settled? op = t.settled? y := by
  induction op generalizing y with
  | act a qs =>
    cases h with
    | same => rfl
    | swapped p q =>
      refine Option.ext fun part => ?_
      rw [settled?_act_eq_some_iff, settled?_act_eq_some_iff]
      exact ⟨Gives.swap, Gives.swap⟩
  | subcircuit c n qs ih =>
    obtain ⟨d, hd, rfl⟩ := (Operation.rearranged_subcircuit_iff c n qs y).mp h
    obtain ⟨rfl, hc⟩ := hop.nested
    have hqs : ∀ m ∈ c.moments, ∀ op ∈ m.operations, ∀ q ∈ op.qubits, q ∈ c.qubits :=
      fun m hm op hop q hq => Circuit.mem_qubits.mpr ⟨m, hm, op, hop, hq⟩
    have hlines := momentsLines_eq_ok_iff_of_rearranged hd hc ht hqs
      fun m hm op hop y hr => ih m hm op hop hr ((hc m hm).each op hop) (ht.mono (hqs m hm op hop))
    refine Option.ext fun part => ?_
    simp only [settled?_subcircuit_eq_some_iff, hlines]

/-- An operation that is built anew to repeat a rearranged circuit adds the same. -/
theorem settled?_ofCircuit_of_rearranged {c d : Circuit} (h : c.Rearranged d) (hc : c.Built)
    (n : UInt32) (ht : t.Distinguishes c.qubits) :
    t.settled? (.ofCircuit c n) = t.settled? (.ofCircuit d n) :=
  settled?_eq_of_rearranged (h.ofCircuit n) (Operation.wellFormed_ofCircuit hc.wellFormed n) ht

end Target

/-- Circuits that differ only in the order of operations within moments, at any depth, and in
the order of the operands of gates on couplers have the same script or both none. -/
theorem Circuit.toScript_eq_of_rearranged (t : Target) (c d : Circuit) (hc : c.Built)
    (h : c.Rearranged d)
    (hinj : ∀ p ∈ c.qubits, ∀ q ∈ c.qubits, ∀ l,
      t.labelOf? p = some l → t.labelOf? q = some l → p = q)
    (hne : ∀ q ∈ c.qubits, t.labelOf? q ≠ some "") :
    (c.toScript t).toOption = (d.toScript t).toOption := by
  have ht : t.Distinguishes c.qubits := ⟨hinj, hne⟩
  have hqs : ∀ m ∈ c.moments, ∀ op ∈ m.operations, ∀ q ∈ op.qubits, q ∈ c.qubits :=
    fun m hm op hop q hq => mem_qubits.mpr ⟨m, hm, op, hop, hq⟩
  have hlines := Target.momentsLines_eq_ok_iff_of_rearranged h hc.wellFormed ht hqs
    fun m hm op hop y hr => Target.settled?_eq_of_rearranged hr ((hc.wellFormed m hm).each op hop)
      (ht.mono (hqs m hm op hop))
  refine Option.ext fun s => ?_
  rw [toOption_eq_some_iff, toOption_eq_some_iff, toScript_eq_ok_iff, toScript_eq_ok_iff,
    h.needsCouplers]
  simp only [hlines]

def Circuit.behindLoop : Circuit :=
  ⟨[⟨[.ofCircuit ⟨[⟨[.x ⟨2⟩]⟩]⟩ 2, .onCoupler [⟨0⟩, ⟨1⟩]]⟩]⟩

theorem Circuit.toScript_behindLoop :
    ∃ s, besidePair.toScript .joinedPair = .ok s ∧ behindLoop.toScript .joinedPair = .ok s := by
  have hqubits : besidePair.qubits = [⟨0⟩, ⟨1⟩, ⟨2⟩] := by decide +kernel
  have hrearranged : besidePair.Rearranged behindLoop :=
    .cons ⟨_, .swap _ _ [], .cons (.same _) (.cons (.swapped ⟨1⟩ ⟨0⟩) .nil)⟩ .nil
  have htext : ∀ p ∈ besidePair.qubits, ∀ q ∈ besidePair.qubits, p.text = q.text → p = q := by
    rw [hqubits]
    decide +kernel
  have hempty : ∀ q ∈ besidePair.qubits, Target.joinedPair.labelOf? q ≠ some "" := by
    rw [hqubits]
    decide +kernel
  have hsome : (besidePair.toScript .joinedPair).toOption.isSome = true := by decide +kernel
  obtain ⟨s, hs⟩ := Option.isSome_iff_exists.mp hsome
  have hsame := toScript_eq_of_rearranged .joinedPair besidePair behindLoop built_besidePair
    hrearranged
    (fun p hp q hq l hpl hql => htext p hp q hq (Option.some.inj (hpl.trans hql.symm))) hempty
  exact ⟨s, (toOption_eq_some_iff _ _).mp hs, (toOption_eq_some_iff _ _).mp (hsame ▸ hs)⟩

end PulseScript
