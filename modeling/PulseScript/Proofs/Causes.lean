import Mathlib
import PulseScript.Proofs.Statements

/-!
# What can go wrong at each stage

Compiling, reading the statements of a script and assembling them fail for causes of their own. A
stage is put together from steps, and it fails for nothing but what one of its steps fails for. The
causes also carry why they came up: a label is missing where it is looked up, a registry is missing
only where a coupler is named, and a statement is blamed by its own line.
-/
namespace PulseScript

/-- Whatever the computation fails for is such. -/
def FailsOnly {α : Type} (P : ScriptError → Prop) (x : Except ScriptError α) : Prop :=
  ∀ e, x = .error e → P e

namespace FailsOnly

variable {α β : Type} {P : ScriptError → Prop} {x : Except ScriptError α}

theorem ok (a : α) : FailsOnly P (.ok a) := fun _ h => absurd h (by simp)

theorem pure (a : α) : FailsOnly P (pure a) := fun e h => absurd h (pure_ne_error a e)

theorem error {e : ScriptError} (h : P e) : FailsOnly P (.error e : Except ScriptError α) := by
  rintro e' ⟨⟩
  exact h

theorem bind {f : α → Except ScriptError β} (hx : FailsOnly P x) (hf : ∀ a, FailsOnly P (f a)) :
    FailsOnly P (x >>= f) := by
  intro e h
  rcases (bind_eq_error_iff x f e).mp h with h | ⟨a, -, h⟩
  · exact hx e h
  · exact hf a e h

theorem mapM {f : β → Except ScriptError α} {xs : List β} (h : ∀ x, FailsOnly P (f x)) :
    FailsOnly P (xs.mapM f) := by
  intro e he
  obtain ⟨x, -, hx⟩ := exists_of_mapM_eq_error he
  exact h x e hx

end FailsOnly

inductive ScriptError.OfCompiling (t : Target) (needs : Bool) : ScriptError → Prop where
  | unsupported (name : String) (qs : List Qubit) : OfCompiling t needs (.unsupported name qs)
  | unmappedQubit {q : Qubit} (h : t.labelOf? q = none) : OfCompiling t needs (.unmappedQubit q)
  | build (cause : BuildError) : OfCompiling t needs (.build cause)
  | missingCouplers (hneeds : needs = true) (hnone : t.couplers = none) :
    OfCompiling t needs .missingCouplers
  | missingCoupler (hneeds : needs = true) (query : CouplerQuery) :
    OfCompiling t needs (.missingCoupler query)

open ScriptError (OfCompiling)

theorem ScriptError.OfCompiling.mono {t : Target} {needs needs' : Bool} {e : ScriptError}
    (h : e.OfCompiling t needs) (hneeds : needs = true → needs' = true) :
    e.OfCompiling t needs' := by
  cases h with
  | unsupported name qs => exact .unsupported name qs
  | unmappedQubit h => exact .unmappedQubit h
  | build cause => exact .build cause
  | missingCouplers h hnone => exact .missingCouplers (hneeds h) hnone
  | missingCoupler h query => exact .missingCoupler (hneeds h) query

theorem ScriptError.OfCompiling.missingCouplers_iff {t : Target} {needs : Bool} :
    OfCompiling t needs .missingCouplers ↔ t.couplers = none ∧ needs = true :=
  ⟨fun | .missingCouplers hneeds hnone => ⟨hnone, hneeds⟩,
    fun ⟨hnone, hneeds⟩ => .missingCouplers hneeds hnone⟩

namespace Target

variable {t : Target} {needs : Bool}

theorem failsOnly_label (q : Qubit) : FailsOnly (OfCompiling t needs) (t.label q) := by
  unfold label
  cases h : t.labelOf? q with
  | none => exact .error (.unmappedQubit h)
  | some label => exact .ok label

theorem failsOnly_singleLabel (name : String) (qs : List Qubit) :
    FailsOnly (OfCompiling t needs) (t.singleLabel name qs) := by
  unfold singleLabel
  split
  · exact failsOnly_label _
  · exact .error (.build _)

theorem failsOnly_smallestLabel (qs : List Qubit) :
    FailsOnly (OfCompiling t needs) (t.smallestLabel qs) := by
  refine .bind (.mapM failsOnly_label) fun labels => ?_
  cases labels <;> exact .pure _

theorem failsOnly_contextLines (d : Decoupling) (label : String) :
    FailsOnly (OfCompiling t needs) (d.contextLines label) := by
  unfold Decoupling.contextLines
  cases d.validate with
  | error cause => exact .error (.build _)
  | ok => exact .ok _

theorem failsOnly_coupler (hneeds : needs = true) (a b : String) :
    FailsOnly (OfCompiling t needs) (t.coupler a b) := by
  unfold coupler
  cases h : t.couplers with
  | none => exact .error (.missingCouplers hneeds h)
  | some r =>
    dsimp only
    cases r.nameFor? a b with
    | none => exact .error (.missingCoupler hneeds _)
    | some name => exact .ok name

/-- An instruction asks for a coupler only if it is on one. -/
theorem failsOnly_instruction (m : Mnemonic) (a : Action) (qs : List Qubit) :
    FailsOnly (OfCompiling t (m.operands == .coupler)) (t.instruction m a qs) := by
  unfold instruction
  split
  case h_1 => exact .bind (failsOnly_singleLabel _ _) fun _ => .pure _
  case h_2 p q hm =>
    refine .bind (failsOnly_label p) fun lp => .bind (failsOnly_label q) fun lq => ?_
    exact .bind (failsOnly_coupler (by simp [hm]) lp lq) fun _ => .pure _
  case h_3 => exact .error (.build _)
  case h_4 => exact .bind (failsOnly_singleLabel _ _) fun _ => .pure _
  case h_5 => exact .error (.unsupported _ _)

/-- An action fails for what its instruction fails for, and only if it is not ignored. -/
theorem failsOnly_actionPart (a : Action) (qs : List Qubit) :
    FailsOnly (OfCompiling t (operationNeedsCouplers t.policy (.act a qs)))
      (t.actionPart a qs) := by
  unfold actionPart
  split
  · exact .ok _
  · rename_i hkept
    split
    · exact .bind (.mapM failsOnly_label) fun _ => .pure _
    · refine .bind (failsOnly_singleLabel _ _) fun label => ?_
      exact .bind (failsOnly_contextLines _ label) fun _ => .pure _
    · split
      · rename_i m hr
        intro e he
        refine (failsOnly_instruction m a qs e he).mono fun hm => ?_
        simpa [operationNeedsCouplers, hkept, Action.needsCoupler, hr] using hm
      · exact .ok _
      · exact .error (.unsupported _ _)

end Target

theorem operationParts_eq_mapM (t : Target) (ops : List Operation) :
    operationParts t ops = ops.mapM (operationPart t) := by
  induction ops with
  | nil => rfl
  | cons op ops ih => rw [operationParts, List.mapM_cons, ih]

/-- Nested lines are not found because those of some nested circuit are not. -/
theorem exists_of_nestedLines_eq_error {parts : List Part} {e : ScriptError}
    (h : nestedLines parts = .error e) : ∃ key n, Part.nested key n (.error e) ∈ parts := by
  obtain h | ⟨groups, -, h⟩ := (bind_eq_error_iff _ _ _).mp h
  · obtain ⟨⟨key, n, lines⟩, hmem, h⟩ := exists_of_mapM_eq_error h
    obtain ⟨part, hpart, hnested⟩ := List.mem_filterMap.mp (List.mem_mergeSort.mp hmem)
    have hlines : lines = .error e := by
      by_cases hn : n = 0
      · exact absurd h (by simp [hn, pure_ne_error])
      · cases lines with
        | error cause => simpa [hn, Except.map] using h
        | ok lines => exact absurd h (by simp [hn, Except.map])
    cases part with
    | nested k i ls =>
      obtain ⟨rfl, rfl, rfl⟩ : k = key ∧ i = n ∧ ls = lines := by simpa [Part.nested?] using hnested
      exact ⟨k, i, hlines ▸ hpart⟩
    | _ => exact absurd hnested (by simp [Part.nested?])
  · exact absurd h (pure_ne_error _ e)

/-- Moments have no lines because an operation has no part or is a nested circuit without lines. -/
theorem exists_of_momentsLines_eq_error {t : Target} {ms : List Moment} {e : ScriptError}
    (h : momentsLines t ms = .error e) : ∃ m ∈ ms, ∃ op ∈ m.operations,
      operationPart t op = .error e ∨
        ∃ key n, operationPart t op = .ok (.nested key n (.error e)) := by
  induction ms with
  | nil => exact absurd h (by simp [momentsLines])
  | cons m ms ih =>
    obtain ⟨ops⟩ := m
    rw [momentsLines] at h
    obtain h | ⟨parts, hparts, h⟩ := (bind_eq_error_iff _ _ _).mp h
    · rw [operationParts_eq_mapM] at h
      obtain ⟨op, hop, he⟩ := exists_of_mapM_eq_error h
      exact ⟨_, List.mem_cons_self, op, hop, .inl he⟩
    obtain h | ⟨lines, -, h⟩ := (bind_eq_error_iff _ _ _).mp h
    · obtain h | ⟨nested, -, h⟩ := (bind_eq_error_iff _ _ _).mp h
      · obtain ⟨key, n, hpart⟩ := exists_of_nestedLines_eq_error h
        obtain ⟨op, hop, he⟩ :=
          forall₂_left_of_mem ((operationParts_eq_ok_iff t ops parts).mp hparts) hpart
        exact ⟨_, List.mem_cons_self, op, hop, .inr ⟨key, n, he⟩⟩
      · exact absurd h (pure_ne_error _ e)
    obtain h | ⟨rest, -, h⟩ := (bind_eq_error_iff _ _ _).mp h
    · obtain ⟨k, hk, op, hop, he⟩ := ih h
      exact ⟨k, List.mem_cons_of_mem _ hk, op, hop, he⟩
    · exact absurd h (pure_ne_error _ e)

/-- What an operation fails for, or the circuit nested in it at whatever depth. -/
theorem ofCompiling_of_operationPart {t : Target} {e : ScriptError} (op : Operation)
    (h : operationPart t op = .error e ∨
      ∃ key n, operationPart t op = .ok (.nested key n (.error e))) :
    e.OfCompiling t (operationNeedsCouplers t.policy op) := by
  induction op with
  | act a qs =>
    rcases h with h | ⟨key, n, h⟩
    · exact t.failsOnly_actionPart a qs e h
    · exact nomatch (t.actionPart_eq_ok_iff a qs _).mp h
  | subcircuit c k qs ih =>
    obtain ⟨ms⟩ := c
    rcases h with h | ⟨key, n, h⟩
    · have hlabels : FailsOnly (OfCompiling t (momentsNeedCouplers t.policy ms))
          (operationPart t (.subcircuit ⟨ms⟩ k qs)) :=
        .bind (t.failsOnly_smallestLabel qs) fun _ => .pure _
      exact hlabels e h
    · obtain ⟨label, -, hpart⟩ := (operationPart_subcircuit_eq_ok_iff t ⟨ms⟩ k qs _).mp h
      simp only [Part.nested.injEq] at hpart
      obtain ⟨m, hm, op, hop, he⟩ := exists_of_momentsLines_eq_error hpart.2.2.symm
      refine (ih m hm op hop he).mono fun hneeds => ?_
      exact (momentsNeedCouplers_iff t.policy ms).mpr ⟨m, hm, op, hop, hneeds⟩

theorem failsOnly_momentsLines (t : Target) (ms : List Moment) :
    FailsOnly (OfCompiling t (momentsNeedCouplers t.policy ms)) (momentsLines t ms) := by
  intro e h
  obtain ⟨m, hm, op, hop, he⟩ := exists_of_momentsLines_eq_error h
  refine (ofCompiling_of_operationPart op he).mono fun hneeds => ?_
  exact (momentsNeedCouplers_iff t.policy ms).mpr ⟨m, hm, op, hop, hneeds⟩

/-- Agents are missed before anything is compiled, and only if there are none. -/
theorem Circuit.toScript_ne_noAgents {t : Target} (h : t.agents ≠ []) (c : Circuit) :
    c.toScript t ≠ .error .noAgents := by
  intro he
  have hlines : c.lines t = .error .noAgents := by
    rw [toScript] at he
    cases hc : c.lines t with
    | error e => simpa [hc, Except.map] using he
    | ok lines => exact absurd he (by simp [hc, Except.map])
  rw [lines, if_neg (by simpa using h)] at hlines
  split at hlines
  · exact absurd hlines (by simp)
  · exact nomatch failsOnly_momentsLines t c.moments _ hlines

inductive ScriptError.OfReading : ScriptError → Prop where
  | unknownMnemonic (line : Nat) (word : String) : OfReading (.unknownMnemonic line word)
  | malformed (line : Nat) (instruction : String) (reason : MalformedReason) :
    OfReading (.malformed line instruction reason)
  | invalidContext (line : Nat) (fault : ContextFault) : OfReading (.invalidContext line fault)
  | unterminatedContext (line : Nat) : OfReading (.unterminatedContext line)

open ScriptError (OfReading)

section Reading

variable (filter : Option LineFilter)

theorem SourceLine.failsOnly_statement (l : SourceLine) :
    FailsOnly OfReading (l.statement filter) := by
  unfold statement instruction
  split
  · exact .ok _
  · split
    · exact .ok _
    · split
      · exact .error (.unknownMnemonic _ _)
      · split
        · exact .error (.malformed _ _ _)
        · exact .ok _

theorem OpenBlock.failsOnly_close (b : OpenBlock) : FailsOnly OfReading b.close := by
  unfold close
  split
  · exact .error (.invalidContext _ _)
  · exact .error (.invalidContext _ _)
  · exact .ok _

theorem ReaderState.failsOnly_step (s : ReaderState) (l : SourceLine) :
    FailsOnly OfReading (step filter s l) := by
  unfold step
  split
  · split
    · exact .ok _
    · cases h : l.statement filter with
      | error e => exact .error (l.failsOnly_statement filter e h)
      | ok statement => exact .ok _
  · rename_i b hblock
    split
    · cases h : b.close with
      | error e => exact .error (b.failsOnly_close e h)
      | ok block => exact .ok _
    · split
      · exact .error (.invalidContext _ _)
      · exact .ok _

theorem Program.failsOnly_ofText (source : String) :
    FailsOnly OfReading (Program.ofText filter source) := by
  unfold ofText ofLines
  cases h : (sourceLines source).foldlM (ReaderState.step filter) .start with
  | error e =>
    obtain ⟨l, -, s, hs⟩ := exists_of_foldlM_eq_error h
    exact .error (s.failsOnly_step filter l e hs)
  | ok s =>
    simp only [ReaderState.finish]
    split
    · exact .ok _
    · exact .error (.unterminatedContext _)

end Reading

inductive ScriptError.OfStatement (w : Wiring) (line : Nat) (coupled : Bool) :
    ScriptError → Prop where
  | unmappedLabel {label : String} (h : w.qubitOf? label = none) :
    OfStatement w line coupled (.unmappedLabel label line)
  | malformed (instruction : String) (reason : MalformedReason) :
    OfStatement w line coupled (.malformed line instruction reason)
  | invalidContext (fault : ContextFault) :
    OfStatement w line coupled (.invalidContext line fault)
  | build (cause : BuildError) : OfStatement w line coupled (.build cause)
  | missingCouplers (hcoupled : coupled = true) (hnone : w.couplers = none) :
    OfStatement w line coupled .missingCouplers
  | missingCoupler (hcoupled : coupled = true) (query : CouplerQuery) :
    OfStatement w line coupled (.missingCoupler query)

open ScriptError (OfStatement)

theorem ScriptError.OfStatement.missingCouplers_iff {w : Wiring} {line : Nat} {coupled : Bool} :
    OfStatement w line coupled .missingCouplers ↔ w.couplers = none ∧ coupled = true :=
  ⟨fun | .missingCouplers hcoupled hnone => ⟨hnone, hcoupled⟩,
    fun ⟨hnone, hcoupled⟩ => .missingCouplers hcoupled hnone⟩

theorem ScriptError.OfStatement.unmappedLabel_iff {w : Wiring} {line n : Nat} {coupled : Bool}
    {label : String} : OfStatement w line coupled (.unmappedLabel label n) ↔
      n = line ∧ w.qubitOf? label = none := by
  constructor
  · rintro ⟨h⟩
    exact ⟨rfl, h⟩
  · rintro ⟨rfl, h⟩
    exact .unmappedLabel h

section Assembling

variable {w : Wiring} {line : Nat} {coupled : Bool}

theorem Wiring.failsOnly_qubit (label : String) :
    FailsOnly (OfStatement w line coupled) (w.qubit line label) := by
  unfold qubit
  cases h : w.qubitOf? label with
  | none => exact .error (.unmappedLabel h)
  | some q => exact .ok q

theorem Wiring.failsOnly_pair (hcoupled : coupled = true) (name : String) :
    FailsOnly (OfStatement w line coupled) (w.pair name) := by
  unfold pair
  cases h : w.couplers with
  | none => exact .error (.missingCouplers hcoupled h)
  | some r =>
    dsimp only
    cases r.pairFor? name with
    | none => exact .error (.missingCoupler hcoupled _)
    | some pair => exact .ok pair

theorem Mnemonic.failsOnly_gateAt (m : Mnemonic) :
    FailsOnly (OfStatement w line coupled) (m.gateAt line) := by
  unfold gateAt
  cases m.gate? with
  | none => exact .error (.malformed _ _)
  | some g => exact .ok g

theorem failsOnly_liftBuild {α : Type} (r : Except BuildError α) :
    FailsOnly (OfStatement w line coupled) (liftBuild r) := by
  cases r with
  | error cause => exact .error (.build cause)
  | ok a => exact .ok a

/-- A block that cannot be decoded is named by its line. -/
theorem ContextBlock.invalidContext_of_decode {b : ContextBlock} {e : ScriptError}
    (h : b.decode line = .error e) : ∃ fault, e = .invalidContext line fault := by
  unfold decode at h
  split at h
  · exact ⟨_, (Except.error.inj h).symm⟩
  · split at h
    · exact ⟨_, (Except.error.inj h).symm⟩
    · exact absurd h (by simp)
    · exact ⟨_, (Except.error.inj h).symm⟩

theorem ContextBlock.failsOnly_decode (b : ContextBlock) :
    FailsOnly (OfStatement w line coupled) (b.decode line) := by
  intro e h
  obtain ⟨fault, rfl⟩ := invalidContext_of_decode h
  exact .invalidContext fault

/-- A statement asks for a coupler only if it names one. -/
theorem Statement.failsOnly_operation? (s : Statement) :
    FailsOnly (OfStatement w line s.isCoupled) (s.operation? w line) := by
  cases s with
  | gate m label =>
    refine .bind m.failsOnly_gateAt fun g => .bind (w.failsOnly_qubit label) fun q => ?_
    exact .bind (failsOnly_liftBuild _) fun _ => .pure _
  | coupled m name =>
    refine .bind (w.failsOnly_pair rfl name) fun (a, b) => .bind m.failsOnly_gateAt fun g => ?_
    refine .bind (w.failsOnly_qubit a) fun p => .bind (w.failsOnly_qubit b) fun q => ?_
    exact .bind (failsOnly_liftBuild _) fun _ => .pure _
  | measure labels =>
    refine .bind (.mapM w.failsOnly_qubit) fun qs => ?_
    exact .bind (failsOnly_liftBuild _) fun _ => .pure _
  | idle label ns => exact .bind (w.failsOnly_qubit label) fun _ => .pure _
  | context b =>
    exact .bind b.failsOnly_decode fun (d, label) =>
      .bind (w.failsOnly_qubit label) fun _ => .pure _
  | barrier agents => exact .ok _
  | comment text => exact .ok _
  | ignored text => exact .ok _

theorem Assembly.failsOnly_step (s : Assembly) (l : ProgramLine) :
    FailsOnly (OfStatement w l.number l.statement.isCoupled) (Assembly.step w s l) := by
  unfold step
  split
  · exact .ok _
  · refine .bind l.statement.failsOnly_operation? fun found => ?_
    cases found with
    | none => exact .pure _
    | some op => exact .bind (failsOnly_liftBuild _) fun _ => .pure _

/-- A program is not assembled because of one of its lines. -/
theorem Program.exists_of_assemble_eq_error {p : Program} {e : ScriptError}
    (h : p.assemble w = .error e) : ∃ l ∈ p.lines, ∃ s, Assembly.step w s l = .error e := by
  unfold assemble at h
  split at h
  · rename_i cause hrun
    obtain rfl : cause = e := by simpa using h
    exact exists_of_foldlM_eq_error hrun
  · exact absurd h (by simp)

/-- A script has no circuit because it has no program, because it names couplers without a registry,
or because of one of its statements. -/
theorem Circuit.exists_of_ofScript_eq_error {filter : Option LineFilter} {source : String}
    {e : ScriptError} (h : Circuit.ofScript w filter source = .error e) :
    Program.ofText filter source = .error e ∨
      ∃ p, Program.ofText filter source = .ok p ∧
        (e = .missingCouplers ∨ ∃ l ∈ p.lines, ∃ s, Assembly.step w s l = .error e) := by
  cases hp : Program.ofText filter source with
  | error cause =>
    obtain rfl : cause = e := by simpa [ofScript, hp, bind, Except.bind] using h
    exact .inl rfl
  | ok p =>
    rw [ofScript_of_program hp] at h
    split at h
    · exact .inr ⟨p, rfl, .inl (Except.error.inj h).symm⟩
    · exact .inr ⟨p, rfl, .inr (Program.exists_of_assemble_eq_error h)⟩

end Assembling
end PulseScript
