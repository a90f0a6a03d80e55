import Mathlib
import PulseScript.Proofs.Causes
import PulseScript.Proofs.RoundTrip

/-!
# Missing couplers are noticed in advance

Without a coupler registry a circuit or a script is refused before anything else is looked at, by
a scan for what needs a coupler. The compiler and the reader ask for the registry at one place
each, too. They get there only with what the scans have found: the error for a missing registry,
wherever it comes up, is traced back to an operation or a statement on a coupler. What the scans
pass is done without the registry, and is the same for every registry.
-/
namespace PulseScript

open ScriptError (OfCompiling OfStatement)

/-- Where there is no registry, what has passed the scan needs none. -/
theorem ne_true_of_passed {needed : Bool}
    (h : (none : Option CouplerRegistry).isSome ∨ needed = false) : needed ≠ true := by
  simpa using h

/-- An action asks for the registry only if the scan has found it. -/
theorem Target.needsCouplers_of_actionPart_eq {t : Target} {a : Action} {qs : List Qubit}
    (h : t.actionPart a qs = .error .missingCouplers) :
    t.couplers = none ∧ operationNeedsCouplers t.policy (.act a qs) = true :=
  OfCompiling.missingCouplers_iff.mp (t.failsOnly_actionPart a qs _ h)

theorem needsCouplers_of_momentsLines {t : Target} {ms : List Moment}
    (h : momentsLines t ms = .error .missingCouplers) :
    t.couplers = none ∧ momentsNeedCouplers t.policy ms = true :=
  OfCompiling.missingCouplers_iff.mp (failsOnly_momentsLines t ms _ h)

/-- To read the statements of a script takes no couplers. -/
theorem Program.ofText_ne_missingCouplers (filter : Option LineFilter) (source : String) :
    Program.ofText filter source ≠ .error .missingCouplers :=
  fun h => nomatch failsOnly_ofText filter source _ h

/-- A statement asks for the registry only if it names a coupler. -/
theorem Statement.isCoupled_of_operation?_eq {w : Wiring} {line : Nat} {s : Statement}
    (h : s.operation? w line = .error .missingCouplers) :
    w.couplers = none ∧ s.isCoupled = true :=
  OfStatement.missingCouplers_iff.mp (s.failsOnly_operation? _ h)

theorem Program.usesCouplers_iff (p : Program) :
    p.usesCouplers = true ↔ ∃ l ∈ p.lines, l.statement.isCoupled = true := List.any_eq_true

theorem Program.usesCouplers_of_assemble_eq {w : Wiring} {p : Program}
    (h : p.assemble w = .error .missingCouplers) : w.couplers = none ∧ p.usesCouplers = true := by
  obtain ⟨l, hl, s, hs⟩ := exists_of_assemble_eq_error h
  obtain ⟨hnone, hcoupled⟩ := OfStatement.missingCouplers_iff.mp (s.failsOnly_step l _ hs)
  exact ⟨hnone, p.usesCouplers_iff.mpr ⟨l, hl, hcoupled⟩⟩

/-- What needs no coupler has the same part whatever the couplers are. -/
theorem Target.instruction_couplers (t : Target) (r r' : Option CouplerRegistry) {m : Mnemonic}
    (hm : m.operands ≠ .coupler) (a : Action) (qs : List Qubit) :
    { t with couplers := r }.instruction m a qs = { t with couplers := r' }.instruction m a qs := by
  unfold instruction
  split
  case h_2 h => exact absurd h hm
  all_goals rfl

theorem Target.actionPart_couplers (t : Target) (r r' : Option CouplerRegistry) {a : Action}
    {qs : List Qubit} (h : operationNeedsCouplers t.policy (.act a qs) = false) :
    { t with couplers := r }.actionPart a qs = { t with couplers := r' }.actionPart a qs := by
  unfold actionPart
  split
  · rfl
  · rename_i hkept
    split
    · rfl
    · rfl
    · split
      · rename_i m hr
        refine t.instruction_couplers r r' (fun hm => ?_) _ qs
        simp [operationNeedsCouplers, hkept, Action.needsCoupler, hr, hm] at h
      · rfl
      · rfl

theorem operationParts_congr {t t' : Target} {ops : List Operation}
    (h : ∀ op ∈ ops, operationPart t op = operationPart t' op) :
    operationParts t ops = operationParts t' ops := by
  induction ops with
  | nil => rfl
  | cons op ops ih =>
    rw [operationParts, operationParts, h op (by simp), ih fun x hx => h x (by simp [hx])]

theorem momentsLines_congr {t t' : Target} (hbarrier : t.barrier = t'.barrier) {ms : List Moment}
    (h : ∀ m ∈ ms, ∀ op ∈ m.operations, operationPart t op = operationPart t' op) :
    momentsLines t ms = momentsLines t' ms := by
  have hparts : t.partsLines = t'.partsLines := by
    funext parts
    rw [Target.partsLines, Target.partsLines, hbarrier]
  induction ms with
  | nil => rfl
  | cons m ms ih =>
    obtain ⟨ops⟩ := m
    have hops : operationParts t ops = operationParts t' ops :=
      operationParts_congr (h ⟨ops⟩ List.mem_cons_self)
    rw [momentsLines, momentsLines, hops, hparts, ih fun k hk => h k (by simp [hk])]

theorem momentsNeedCouplers_eq_false_iff (p : IgnorePolicy) (ms : List Moment) :
    momentsNeedCouplers p ms = false ↔
      ∀ m ∈ ms, ∀ op ∈ m.operations, operationNeedsCouplers p op = false := by
  rw [← Bool.not_eq_true, momentsNeedCouplers_iff]
  push Not
  simp only [Bool.not_eq_true]

theorem Target.barrier_couplers (t : Target) (r r' : Option CouplerRegistry) :
    { t with couplers := r }.barrier = { t with couplers := r' }.barrier := rfl

theorem operationPart_couplers (t : Target) (r r' : Option CouplerRegistry) {op : Operation}
    (h : operationNeedsCouplers t.policy op = false) :
    operationPart { t with couplers := r } op = operationPart { t with couplers := r' } op := by
  induction op with
  | act a qs => exact t.actionPart_couplers r r' h
  | subcircuit c n qs ih =>
    obtain ⟨ms⟩ := c
    have hnone := (momentsNeedCouplers_eq_false_iff t.policy ms).mp h
    rw [operationPart, operationPart, momentsLines_congr (t.barrier_couplers r r')
      fun m hm op hop => ih m hm op hop (hnone m hm op hop)]
    rfl

/-- Moments without an operation on a coupler have the same lines whatever the couplers are. -/
theorem momentsLines_couplers (t : Target) (r r' : Option CouplerRegistry) {ms : List Moment}
    (h : momentsNeedCouplers t.policy ms = false) :
    momentsLines { t with couplers := r } ms = momentsLines { t with couplers := r' } ms :=
  have hnone := (momentsNeedCouplers_eq_false_iff t.policy ms).mp h
  momentsLines_congr (t.barrier_couplers r r') fun m hm op hop =>
    operationPart_couplers t r r' (hnone m hm op hop)

theorem Statement.operation?_couplers (w : Wiring) (r r' : Option CouplerRegistry) (line : Nat)
    {s : Statement} (h : s.isCoupled = false) :
    s.operation? { w with couplers := r } line = s.operation? { w with couplers := r' } line := by
  cases s with
  | coupled m name => exact absurd h (by simp [isCoupled])
  | _ => rfl

/-- A program that names no coupler has the same circuit whatever the couplers are. -/
theorem Program.assemble_couplers (w : Wiring) (r r' : Option CouplerRegistry) {p : Program}
    (h : p.usesCouplers = false) :
    p.assemble { w with couplers := r } = p.assemble { w with couplers := r' } := by
  have hstep : ∀ l ∈ p.lines, ∀ s,
      Assembly.step { w with couplers := r } s l = Assembly.step { w with couplers := r' } s l := by
    intro l hl s
    have hcoupled := Bool.eq_false_iff.mpr (List.any_eq_false.mp h l hl)
    rw [Assembly.step, Assembly.step, Statement.operation?_couplers w r r' l.number hcoupled]
  rw [assemble, assemble, foldlM_congr hstep]

namespace Circuit

/-- With an agent there is a script unless the scan or the compiler objects. -/
theorem toScript_of_agents {t : Target} (h : t.agents ≠ []) (c : Circuit) :
    c.toScript t = if t.couplers.isNone && c.needsCouplers t.policy then .error .missingCouplers
      else (momentsLines t c.moments).map scriptText := by
  rw [toScript, lines, if_neg (by simpa using h)]
  split <;> rfl

theorem toScript_eq_missingCouplers_iff {t : Target} (h : t.agents ≠ []) (c : Circuit) :
    c.toScript t = .error .missingCouplers ↔
      t.couplers = none ∧ c.needsCouplers t.policy = true := by
  rw [toScript_of_agents h]
  split
  · rename_i hscan
    simpa using hscan
  · rename_i hscan
    rw [map_eq_error_iff]
    exact ⟨needsCouplers_of_momentsLines, fun hneed => absurd (by simpa using hneed) hscan⟩

theorem needsCouplers_iff (p : IgnorePolicy) (c : Circuit) : c.needsCouplers p = true ↔
    ∃ qs, c.Holds (.onCoupler qs) ∧ p.ignores (.onCoupler qs) = false := by
  rw [← not_iff_not, Bool.not_eq_true, needsCouplers_eq_false_iff]
  push Not
  simp only [ne_eq, Bool.not_eq_false]

/-- Without an operation on a coupler the registry makes no difference to the script. -/
theorem toScript_couplers (t : Target) (r r' : Option CouplerRegistry) (c : Circuit)
    (h : c.needsCouplers t.policy = false) :
    c.toScript { t with couplers := r } = c.toScript { t with couplers := r' } := by
  have hlines := momentsLines_couplers t r r' h
  simp only [toScript, lines, h, Bool.and_false, Bool.false_eq_true, if_false, hlines]

/-- The scan finds what needs a coupler at every depth. -/
theorem Holds.needsCouplers {c : Circuit} {a : Action} {qs : List Qubit} (h : c.Holds (.act a qs))
    {p : IgnorePolicy} (hneed : operationNeedsCouplers p (.act a qs) = true) :
    c.needsCouplers p = true := by
  obtain ⟨rs, hkept, hop | ⟨_, _, _, hop, -⟩⟩ := (operationNeedsCouplers_iff p _).mp hneed
  · exact (needsCouplers_iff p c).mpr ⟨rs, hop ▸ h, hkept⟩
  · exact absurd hop (by simp)

theorem toScript_unregistered_iff {t : Target} (h : t.agents ≠ []) (c : Circuit) :
    c.toScript { t with couplers := none } = .error .missingCouplers ↔
      ∃ qs, c.Holds (.onCoupler qs) ∧ t.policy.ignores (.onCoupler qs) = false := by
  rw [toScript_eq_missingCouplers_iff (t := { t with couplers := none }) h, needsCouplers_iff]
  exact and_iff_right rfl

/-- Unless the scan objects, no registry is as good as any. -/
theorem toScript_unregistered {t : Target} (h : t.agents ≠ []) (c : Circuit) :
    c.toScript { t with couplers := none } = .error .missingCouplers ∨
      ∀ r, c.toScript { t with couplers := none } = c.toScript { t with couplers := some r } := by
  cases hneed : c.needsCouplers t.policy with
  | true =>
    refine .inl ?_
    exact (toScript_eq_missingCouplers_iff (t := { t with couplers := none }) h c).mpr ⟨rfl, hneed⟩
  | false => exact .inr fun r => toScript_couplers t none (some r) c hneed

section Passed

variable {t : Target} {r : Option CouplerRegistry} {c : Circuit}

theorem momentsLines_ne_missingCouplers (h : r.isSome ∨ c.needsCouplers t.policy = false) :
    momentsLines { t with couplers := r } c.moments ≠ .error .missingCouplers := by
  intro hlines
  obtain ⟨rfl, hneed⟩ := needsCouplers_of_momentsLines hlines
  exact ne_true_of_passed h hneed

theorem Holds.actionPart_ne_missingCouplers {a : Action} {qs : List Qubit}
    (hholds : c.Holds (.act a qs)) (h : r.isSome ∨ c.needsCouplers t.policy = false) :
    { t with couplers := r }.actionPart a qs ≠ .error .missingCouplers := by
  intro hpart
  obtain ⟨rfl, hneed⟩ := Target.needsCouplers_of_actionPart_eq hpart
  exact ne_true_of_passed h (hholds.needsCouplers hneed)

end Passed

theorem ofScript_eq_missingCouplers_iff (w : Wiring) (filter : Option LineFilter)
    (source : String) : Circuit.ofScript w filter source = .error .missingCouplers ↔
      w.couplers = none ∧ ∃ p, Program.ofText filter source = .ok p ∧ p.usesCouplers = true := by
  cases hp : Program.ofText filter source with
  | error e =>
    have hother : e ≠ .missingCouplers := by
      rintro rfl
      exact Program.ofText_ne_missingCouplers filter source hp
    simp [ofScript, hp, bind, Except.bind, hother]
  | ok p =>
    rw [ofScript_of_program hp]
    split
    · rename_i hscan
      simpa using hscan
    · rename_i hscan
      have hfound : w.couplers = none ∧ p.usesCouplers = true → False :=
        fun hneed => hscan (by simpa using hneed)
      simpa using iff_of_false (fun h => hfound (Program.usesCouplers_of_assemble_eq h)) hfound

/-- Without a statement that names a coupler the registry makes no difference to the circuit. -/
theorem ofScript_couplers (w : Wiring) (r r' : Option CouplerRegistry)
    (filter : Option LineFilter) (source : String)
    (h : ∀ p, Program.ofText filter source = .ok p → p.usesCouplers = false) :
    Circuit.ofScript { w with couplers := r } filter source =
      Circuit.ofScript { w with couplers := r' } filter source := by
  cases hp : Program.ofText filter source with
  | error e => rw [ofScript, ofScript, hp]; rfl
  | ok p =>
    rw [ofScript_of_program hp, ofScript_of_program hp, h p hp, Bool.and_false, Bool.and_false,
      Program.assemble_couplers w r r' (h p hp)]

end Circuit

theorem Mnemonic.eq_cz_of_coupler {m : Mnemonic} (h : m.operands = .coupler) : m = .cz := by
  cases m <;> first | rfl | exact absurd h (by decide)

/-- What names a coupler is the one instruction on couplers. -/
theorem Program.usesCouplers_iff_of_ofText {filter : Option LineFilter} {source : String}
    {p : Program} (h : Program.ofText filter source = .ok p) :
    p.usesCouplers = true ↔ ∃ l ∈ p.lines, ∃ name, l.statement = .coupled .cz name := by
  rw [usesCouplers_iff]
  refine exists_congr fun l => and_congr_right fun hl => ⟨fun hcoupled => ?_, ?_⟩
  · have hfits := fits_of_ofText h l hl
    cases hs : l.statement with
    | coupled m name =>
      rw [hs] at hfits
      exact ⟨name, by rw [Mnemonic.eq_cz_of_coupler hfits]⟩
    | _ => exact absurd hcoupled (by simp [hs, Statement.isCoupled])
  · rintro ⟨name, hs⟩
    rw [hs]
    rfl

section Unregistered

variable (w : Wiring) (filter : Option LineFilter) (source : String)

theorem Circuit.ofScript_unregistered_iff :
    Circuit.ofScript { w with couplers := none } filter source = .error .missingCouplers ↔
      ∃ p, Program.ofText filter source = .ok p ∧
        ∃ l ∈ p.lines, ∃ name, l.statement = .coupled .cz name := by
  rw [ofScript_eq_missingCouplers_iff, and_iff_right rfl]
  exact exists_congr fun p => and_congr_right fun hp => Program.usesCouplers_iff_of_ofText hp

theorem Circuit.ofScript_unregistered :
    Circuit.ofScript { w with couplers := none } filter source = .error .missingCouplers ∨
      ∀ r, Circuit.ofScript { w with couplers := none } filter source =
        Circuit.ofScript { w with couplers := some r } filter source := by
  by_cases hneed : ∃ p, Program.ofText filter source = .ok p ∧ p.usesCouplers = true
  · exact .inl ((ofScript_eq_missingCouplers_iff _ filter source).mpr ⟨rfl, hneed⟩)
  · refine .inr fun r => ofScript_couplers w none (some r) filter source fun p hp => ?_
    exact Bool.eq_false_iff.mpr fun hcoupled => hneed ⟨p, hp, hcoupled⟩

end Unregistered

section Passed

variable {r : Option CouplerRegistry} {p : Program}

theorem Program.assemble_ne_missingCouplers (w : Wiring) (h : r.isSome ∨ p.usesCouplers = false) :
    p.assemble { w with couplers := r } ≠ .error .missingCouplers := by
  intro hassemble
  obtain ⟨rfl, hcoupled⟩ := usesCouplers_of_assemble_eq hassemble
  exact ne_true_of_passed h hcoupled

theorem Program.operation?_ne_missingCouplers (w : Wiring) (h : r.isSome ∨ p.usesCouplers = false)
    {l : ProgramLine} (hl : l ∈ p.lines) :
    l.statement.operation? { w with couplers := r } l.number ≠ .error .missingCouplers := by
  intro hoperation
  obtain ⟨rfl, hcoupled⟩ := Statement.isCoupled_of_operation?_eq hoperation
  exact ne_true_of_passed h (p.usesCouplers_iff.mpr ⟨l, hl, hcoupled⟩)

end Passed

/-- A circuit is refused for a missing registry exactly if some operation that is not ignored is
on a coupler, at any depth and however often it is repeated. Otherwise it has the same script, or
the same error, for every registry. Once it has passed the scan, no action asks for a missing
registry. A script and its statements on couplers are no different. -/
theorem missingCouplers_by_scan :
    (∀ (t : Target) (c : Circuit), t.agents ≠ [] →
      (c.toScript { t with couplers := none } = .error .missingCouplers ↔
        ∃ qs, c.Holds (.onCoupler qs) ∧ t.policy.ignores (.onCoupler qs) = false) ∧
      (c.toScript { t with couplers := none } = .error .missingCouplers ∨
        ∀ r, c.toScript { t with couplers := none } = c.toScript { t with couplers := some r }) ∧
      ∀ r : Option CouplerRegistry, r.isSome ∨ c.needsCouplers t.policy = false →
        momentsLines { t with couplers := r } c.moments ≠ .error .missingCouplers ∧
        ∀ a qs, c.Holds (.act a qs) →
          { t with couplers := r }.actionPart a qs ≠ .error .missingCouplers) ∧
    ∀ (w : Wiring) (filter : Option LineFilter) (source : String),
      (Circuit.ofScript { w with couplers := none } filter source = .error .missingCouplers ↔
        ∃ p, Program.ofText filter source = .ok p ∧
          ∃ l ∈ p.lines, ∃ name, l.statement = .coupled .cz name) ∧
      (Circuit.ofScript { w with couplers := none } filter source = .error .missingCouplers ∨
        ∀ r, Circuit.ofScript { w with couplers := none } filter source =
          Circuit.ofScript { w with couplers := some r } filter source) ∧
      ∀ (r : Option CouplerRegistry) (p : Program), r.isSome ∨ p.usesCouplers = false →
        p.assemble { w with couplers := r } ≠ .error .missingCouplers ∧
        ∀ l ∈ p.lines,
          l.statement.operation? { w with couplers := r } l.number ≠ .error .missingCouplers := by
  constructor
  · intro t c hagents
    exact ⟨c.toScript_unregistered_iff hagents, c.toScript_unregistered hagents, fun r hr =>
      ⟨Circuit.momentsLines_ne_missingCouplers hr, fun a qs hholds =>
        hholds.actionPart_ne_missingCouplers hr⟩⟩
  · intro w filter source
    exact ⟨Circuit.ofScript_unregistered_iff w filter source,
      Circuit.ofScript_unregistered w filter source, fun r p hr =>
        ⟨p.assemble_ne_missingCouplers w hr, fun l hl => p.operation?_ne_missingCouplers w hr hl⟩⟩

def Circuit.skippedPair : Circuit := ⟨[⟨[.ofCircuit ⟨[⟨[.onCoupler [⟨0⟩, ⟨1⟩]]⟩]⟩ 0]⟩]⟩

theorem missingCouplers_skippedPair :
    Circuit.skippedPair.toScript { Target.joinedPair with couplers := none } =
      .error .missingCouplers ∧
    Circuit.skippedPair.toScript .joinedPair = .ok "B A\n" ∧
    Circuit.ofScript { Wiring.joinedPair with couplers := none } none "CZ G\nB A\n" =
      .error .missingCouplers ∧
    ∀ r, Circuit.ofScript { Wiring.joinedPair with couplers := none } (some ⟨["CZ"]⟩)
        "CZ G\nB A\n" =
      Circuit.ofScript { Wiring.joinedPair with couplers := some r } (some ⟨["CZ"]⟩)
        "CZ G\nB A\n" := by
  obtain ⟨hcompile, hread⟩ := missingCouplers_by_scan
  have hholds : Circuit.skippedPair.Holds (.onCoupler [⟨0⟩, ⟨1⟩]) :=
    .nested List.mem_cons_self List.mem_cons_self (.here List.mem_cons_self List.mem_cons_self)
  have hprogram : Program.ofText none "CZ G\nB A\n" =
      .ok ⟨[⟨1, .coupled .cz "G"⟩, ⟨2, .barrier ["A"]⟩]⟩ := by decide +kernel
  have hfiltered : Program.ofText (some ⟨["CZ"]⟩) "CZ G\nB A\n" =
      .ok ⟨[⟨1, .ignored "CZ G"⟩, ⟨2, .barrier ["A"]⟩]⟩ := by decide +kernel
  refine ⟨(hcompile .joinedPair _ (by decide)).1.mpr ⟨_, hholds, by decide +kernel⟩,
    (toOption_eq_some_iff _ _).mp (by decide +kernel),
    (hread .joinedPair none _).1.mpr ⟨_, hprogram, _, List.mem_cons_self, "G", rfl⟩, ?_⟩
  obtain ⟨hiff, hsame, -⟩ := hread .joinedPair (some ⟨["CZ"]⟩) "CZ G\nB A\n"
  refine hsame.resolve_left fun h => ?_
  obtain ⟨p, hp, l, hl, name, hs⟩ := hiff.mp h
  obtain rfl : _ = p := Except.ok.inj (hfiltered.symm.trans hp)
  rcases (by simpa using hl : l = ⟨1, .ignored "CZ G"⟩ ∨ l = ⟨2, .barrier ["A"]⟩) with rfl | rfl
  · exact absurd hs (by simp)
  · exact absurd hs (by simp)

end PulseScript
