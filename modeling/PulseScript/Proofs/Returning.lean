import Mathlib
import PulseScript.Proofs.Equality
import PulseScript.Proofs.MomentText

/-!
# What comes back as it was

Operations that have an instruction or a block, and whose form that instruction or block
stands for, come back from a script as they were. A circuit of such operations is read back
as an equal one, apart from measurements in one moment, which become one.
-/
namespace PulseScript

/-- The action is its own canonical form and equals itself, which NaN does not. -/
def Action.Stable (a : Action) : Prop := a.canonical = a ∧ (a == a) = true

/-- The gate of an instruction has that instruction. -/
theorem Mnemonic.resolve?_gate {m : Mnemonic} {g : StandardGate} (h : m.gate? = some g) :
    g.resolve? = some (.instruction m) := by
  cases m <;> simp only [gate?, Option.some.injEq, reduceCtorEq] at h <;> subst h <;>
    decide +kernel

theorem Mnemonic.stable_gate {m : Mnemonic} {g : StandardGate} (h : m.gate? = some g) :
    (Action.gate (.standard g)).Stable := by
  constructor
  · simp [Action.canonical, Action.resolve?, resolve?_gate h, h]
  · cases m <;> simp only [gate?, Option.some.injEq, reduceCtorEq] at h <;> subst h <;>
      decide +kernel

namespace Action

theorem stable_measure : Action.measure.Stable := ⟨rfl, rfl⟩

theorem stable_delay (ns : UInt64) : (Action.delay ns).Stable :=
  ⟨rfl, show (ns == ns) = true by simp⟩

theorem stable_decoupling {d : Decoupling} (h : d.validate = .ok ()) :
    (Action.decoupling d).Stable :=
  ⟨rfl, Decoupling.beq_self h⟩

end Action

/-- An operation of stable action equals what a reader finds. -/
theorem Operation.Echoes.beq {a : Action} {qs : List Qubit} {r : Operation}
    (h : (Operation.act a qs).Echoes r) (ha : a.Stable) :
    Operation.beq r (.act a qs) = true := by
  have haction : ∀ b, b = a → (b == a) = true := by
    rintro b rfl
    exact ha.2
  generalize hx : Operation.act a qs = x at h
  cases h with
  | same b rs =>
    obtain ⟨rfl, rfl⟩ : a = b ∧ qs = rs := by simpa using hx
    rw [Operation.beq, haction _ ha.1, Operation.sameOperands]
    split <;> simp [List.isPerm_iff]
  | exchanged p q =>
    obtain ⟨rfl, rfl⟩ : a = .gate (.standard .cz) ∧ qs = [p, q] := by simpa using hx
    have hperm : [q, p].isPerm [p, q] = true := List.isPerm_iff.mpr (.swap p q [])
    rw [Operation.beq, ha.2, Operation.sameOperands]
    simpa [Action.isSymmetric, Gate.isSymmetric, StandardGate.isSymmetric] using hperm

theorem Operation.beq_measure (qs : List Qubit) :
    Operation.beq (.act .measure qs) (.act .measure qs) = true := by
  rw [Operation.beq, Action.stable_measure.2, Operation.sameOperands]
  simp [Action.isSymmetric]

/-- The operation has an instruction or a block, from which a reader finds it as it was. -/
inductive Operation.Direct : Operation → Prop where
  | act {a : Action} {qs : List Qubit} (stable : a.Stable) (operands : qs ≠ [])
    (changes : a.resolve? ≠ some .identity)
    (valid : ∀ d, a = .decoupling d → d.validate = .ok ()) : Direct (.act a qs)

namespace Operation.Direct

variable {op : Operation}

theorem exists_act (h : op.Direct) : ∃ a qs, op = .act a qs := by
  cases h with
  | act => exact ⟨_, _, rfl⟩

/-- The gate of an instruction is direct. -/
theorem gate {m : Mnemonic} {g : StandardGate} (h : m.gate? = some g) {qs : List Qubit}
    (hne : qs ≠ []) : (Operation.act (.gate (.standard g)) qs).Direct := by
  have hresolve : (Action.gate (.standard g)).resolve? = some (.instruction m) :=
    Mnemonic.resolve?_gate h
  exact .act (Mnemonic.stable_gate h) hne (by simp [hresolve]) (by simp)

theorem measure {qs : List Qubit} (hne : qs ≠ []) : (Operation.act .measure qs).Direct :=
  .act Action.stable_measure hne (by simp [Action.resolve?]) (by simp)

theorem delay (q : Qubit) (ns : UInt64) : (Operation.ofDelay q ns).Direct :=
  .act (Action.stable_delay ns) (by simp) (by simp [Action.resolve?]) (by simp)

theorem decoupling {d : Decoupling} (h : d.validate = .ok ()) (q : Qubit) :
    (Operation.ofDecoupling d q).Direct := by
  refine .act (Action.stable_decoupling h) (by simp) (by simp [Action.resolve?]) ?_
  rintro e he
  rwa [← Action.decoupling.inj he]

/-- A direct operation that is not ignored is either an entry or a measurement. -/
theorem isEntry_iff {t : Target} (h : op.Direct) (hkept : t.policy.ignores op = false) :
    t.isEntry op = true ↔ op.measured = [] := by
  cases h with
  | @act a qs _ hne hchanges _ =>
    by_cases ha : a = .measure
    · subst ha
      simp [Target.isEntry, measured, hne]
    · rw [measured_act ha, Target.isEntry_act ha]
      simpa using ⟨hkept, hchanges⟩

/-- What a reader finds for a direct operation equals it. -/
theorem beq_of_echoes {r : Operation} (h : op.Direct) (hecho : op.Echoes r) :
    Operation.beq r op = true := by
  cases h with
  | act hstable => exact hecho.beq hstable

end Operation.Direct

namespace Target.Shows

variable {t : Target} {ops outer : List Operation}

/-- What a moment of direct operations shows equals, one by one and in some order, its
entries and its one measurement. -/
theorem exists_beq (h : t.Shows ops outer) (hdirect : ∀ op ∈ ops, op.Direct) :
    ∃ zs, zs.Perm (ops.filter t.isEntry ++ t.merged ops) ∧
      List.Forall₂ (fun r z => Operation.beq r z = true) outer zs := by
  obtain ⟨kept, rs, hperm, hechoes, rfl⟩ := h
  refine ⟨kept ++ t.merged ops, hperm.append_right _, List.rel_append ?_ ?_⟩
  · refine (forall₂_imp_of_mem hechoes fun op hop r hecho => ?_).flip
    have hmem := List.mem_filter.mp (hperm.mem_iff.mp hop)
    exact (hdirect op hmem.1).beq_of_echoes hecho
  · rw [List.forall₂_same]
    intro r hr
    rw [mem_merged hr]
    exact Operation.beq_measure _

/-- What a moment of direct operations shows equals every moment of its entries and its one
measurement. -/
theorem operationsBeq (h : t.Shows ops outer) (hdirect : ∀ op ∈ ops, op.Direct)
    {ys : List Operation} (hys : ys.Perm (ops.filter t.isEntry ++ t.merged ops)) :
    operationsBeq outer ys = true := by
  obtain ⟨zs, hzs, hbeq⟩ := h.exists_beq hdirect
  exact operationsBeq_of_perm hbeq (hzs.trans hys.symm)

end Target.Shows

/-- A circuit without nested circuits whose sequences are valid and read back is read as what
its moments show. -/
theorem Circuit.ofScript_of_flat {t : Target} {w : Wiring} {c : Circuit} {lines : List String}
    (hc : c.WellFormed) (hw : w.Understands t c.qubits) (hagents : t.agents ≠ [])
    (hflat : ∀ m ∈ c.moments, ∀ op ∈ m.operations, ∃ a qs, op = .act a qs)
    (hvalid : ∀ m ∈ c.moments, ∀ d qs, .act (.decoupling d) qs ∈ m.operations →
      d.validate = .ok ())
    (hread : ∀ m ∈ c.moments, ∀ op ∈ m.operations, op.readsBack = true)
    (hlines : momentsLines t c.moments = .ok lines) :
    ∃ outers, Circuit.ofScript w none (scriptText lines) = .ok ⟨outers.map Moment.mk⟩ ∧
      List.Forall₂ (fun m outer => t.Shows m.operations outer) c.moments outers := by
  have hqs : ∀ m ∈ c.moments, ∀ op ∈ m.operations, ∀ q ∈ op.qubits, q ∈ c.qubits :=
    fun m hm op hop q hq => Circuit.mem_qubits.mpr ⟨m, hm, op, hop, hq⟩
  obtain ⟨outers, hplays, hshows⟩ := hw.toFollows.plays_flat hqs hc hflat hlines
  refine ⟨outers, ?_, hshows⟩
  have hapart : ∀ outer ∈ outers, outer.Pairwise Operation.Apart := by
    intro outer houter
    obtain ⟨m, hm, hshow⟩ := forall₂_left_of_mem hshows houter
    exact hshow.apart (hc m hm).apart
  have hself : rereadMoments? outers = some outers := by
    refine rereadMoments?_eq_self fun outer houter op hop => ?_
    obtain ⟨m, hm, hshow⟩ := forall₂_left_of_mem hshows houter
    refine Operation.reread?_eq_self (hshow.readsBack (hread m hm) hop) ?_
    rintro d qs rfl
    exact hvalid m hm d qs (hshow.mem_of_decoupling hop)
  have hscript := hplays.ofScript (.of_words hagents hw.agents) hapart
  rw [hself] at hscript
  exact (toOption_eq_some_iff _ _).mp hscript

/-- The script of a circuit of direct operations is read as a circuit equal to any whose
moments hold, in some order, the entries and the one measurement of the moments. -/
theorem Circuit.exists_ofScript_beq {t : Target} {w : Wiring} {c e : Circuit} {s : String}
    (hc : c.WellFormed) (hdirect : ∀ m ∈ c.moments, ∀ op ∈ m.operations, op.Direct)
    (hw : w.Understands t c.qubits)
    (hread : ∀ m ∈ c.moments, ∀ op ∈ m.operations, op.readsBack = true)
    (he : List.Forall₂ (fun m n : Moment =>
      n.operations.Perm (m.operations.filter t.isEntry ++ t.merged m.operations)) c.moments e.moments)
    (hs : c.toScript t = .ok s) :
    ∃ d, Circuit.ofScript w none s = .ok d ∧ (d == e) = true := by
  obtain ⟨hagents, -, lines, hlines, rfl⟩ := (Circuit.toScript_eq_ok_iff t c s).mp hs
  have hvalid : ∀ m ∈ c.moments, ∀ d qs, .act (.decoupling d) qs ∈ m.operations →
      d.validate = .ok () := by
    intro m hm d qs hop
    cases hdirect m hm _ hop with
    | act _ _ _ hv => exact hv d rfl
  obtain ⟨outers, hscript, hshows⟩ := Circuit.ofScript_of_flat hc hw hagents
    (fun m hm op hop => (hdirect m hm op hop).exists_act) hvalid hread hlines
  refine ⟨_, hscript, (Circuit.beq_iff _ _).mpr ?_⟩
  rw [List.forall₂_map_left_iff]
  clear hscript hlines hw hread hvalid hs hc
  obtain ⟨ms⟩ := c
  obtain ⟨ns⟩ := e
  simp only at hshows he hdirect ⊢
  induction hshows generalizing ns with
  | nil =>
    obtain rfl := List.forall₂_nil_left_iff.mp he
    exact .nil
  | cons hshow _ ih =>
    cases he with
    | cons hperm hrest =>
      refine .cons (hshow.operationsBeq (hdirect _ (by simp)) hperm) ?_
      exact ih (fun m hm => hdirect m (by simp [hm])) _ hrest

end PulseScript
