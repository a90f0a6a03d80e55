import Mathlib
import PulseScript.Proofs.Placement
import PulseScript.Proofs.Recompile

/-!
# Circuits that calls reach

Moments and circuits are built by calls that change them in place, and a call may be refused.
What is refused changes nothing: a push looks at the qubits before it adds anything, a moment
never refuses what is appended, and operands are checked before the circuit is touched. So
whatever was called and refused on the way, no moment uses a qubit twice. A reader builds its
moments by the same pushes, of native operations only.
-/
namespace PulseScript

/-- How a call in place ends, and what it leaves behind. -/
abbrev Outcome (σ : Type) : Type := Except BuildError Unit × σ

/-- A new value takes the place of the old one. With an error the old one stays. -/
def Outcome.settle {σ : Type} (old : σ) : Except BuildError σ → Outcome σ
  | .ok new => (.ok (), new)
  | .error e => (.error e, old)

def Moment.pushInPlace (op : Operation) (m : Moment) : Outcome Moment :=
  match op.qubits.find? m.operatesOn with
  | some q => (.error (.duplicateQubit q op.name), m)
  | none => (.ok (), ⟨m.operations ++ [op]⟩)

namespace Circuit

/-- The moments, with an empty one behind the last if the index is that of a new one. -/
def withRoom (i : Nat) (ms : List Moment) : List Moment :=
  if i = ms.length then ms ++ [.empty] else ms

/-- Adds an operation at the earliest moment after every moment that uses one of its qubits. A new
moment is added empty at first, and would stay if it refused the operation. -/
def appendInPlace (op : Operation) (c : Circuit) : Outcome Circuit :=
  let i := c.placement op.qubits
  let ms := withRoom i c.moments
  let (outcome, m) := (ms[i]?.getD .empty).pushInPlace op
  (outcome, ⟨ms.set i m⟩)

inductive Call where
  | append (op : Operation)
  | x (q : Qubit)
  | y (q : Qubit)
  | rx (a : Angle) (q : Qubit)
  | ry (a : Angle) (q : Qubit)
  | cz (a b : Qubit)
  | measure (qs : List Qubit)

namespace Call

def operation : Call → Except BuildError Operation
  | append op => .ok op
  | x q => .ok (.x q)
  | y q => .ok (.y q)
  | rx a q => .ok (.rx a q)
  | ry a q => .ok (.ry a q)
  | cz a b => Operation.cz a b
  | measure qs => Operation.ofMeasure qs

/-- The call on a circuit in place. -/
def inPlace (k : Call) (c : Circuit) : Outcome Circuit :=
  match k.operation with
  | .error e => (.error e, c)
  | .ok op => c.appendInPlace op

def result : Call → Circuit → Except BuildError Circuit
  | append op, c => c.append op
  | x q, c => c.x q
  | y q, c => c.y q
  | rx a q, c => c.rx a q
  | ry a q, c => c.ry a q
  | cz a b, c => c.cz a b
  | measure qs, c => c.measure qs

end Call

end Circuit

theorem Moment.pushInPlace_eq (op : Operation) (m : Moment) :
    m.pushInPlace op = .settle m (m.push op) := by
  unfold pushInPlace push
  cases op.qubits.find? m.operatesOn <;> rfl

/-- A push is refused for the first qubit of the operation that the moment uses already. -/
theorem Moment.push_eq_error_iff (m : Moment) (op : Operation) (e : BuildError) :
    m.push op = .error e ↔ ∃ front q back, op.qubits = front ++ q :: back ∧
      (∀ r ∈ front, m.operatesOn r = false) ∧ m.operatesOn q = true ∧
      e = .duplicateQubit q op.name := by
  have hfind : m.push op = .error e ↔
      ∃ q, op.qubits.find? m.operatesOn = some q ∧ e = .duplicateQubit q op.name := by
    unfold push
    cases op.qubits.find? m.operatesOn <;> simp [eq_comm]
  rw [hfind]
  constructor
  · rintro ⟨q, hq, rfl⟩
    obtain ⟨hused, front, back, hqubits, hfront⟩ := List.find?_eq_some_iff_append.mp hq
    exact ⟨front, q, back, hqubits, by simpa using hfront, hused, rfl⟩
  · rintro ⟨front, q, back, hqubits, hfront, hused, rfl⟩
    have hfirst := List.find?_eq_some_iff_append.mpr
      ⟨hused, front, back, hqubits, by simpa using hfront⟩
    exact ⟨q, hfirst, rfl⟩

namespace Circuit

theorem withRoom_cons (i : Nat) (m : Moment) (ms : List Moment) :
    withRoom (i + 1) (m :: ms) = m :: withRoom i ms := by
  by_cases h : i = ms.length <;> simp [withRoom, h]

/-- To add an operation at an index is to replace the moment there, if there is room for it. -/
theorem placed_eq_set (op : Operation) {i : Nat} {ms : List Moment} (hi : i ≤ ms.length) :
    placed op i ms =
      (withRoom i ms).set i ⟨((withRoom i ms)[i]?.getD .empty).operations ++ [op]⟩ := by
  induction ms generalizing i with
  | nil =>
    obtain rfl : i = 0 := by simpa using hi
    rfl
  | cons m ms ih =>
    cases i with
    | zero => rfl
    | succ i =>
      rw [placed, ih (by simpa using hi), withRoom_cons, List.set_cons_succ,
        List.getElem?_cons_succ]

theorem placement_le_length (c : Circuit) (qs : List Qubit) :
    c.placement qs ≤ c.moments.length := by
  have := lastUse_le_length qs c.moments
  unfold placement
  split
  · split <;> omega
  · omega

/-- The moment that an operation goes to takes it, whether it is new or not. -/
theorem push_placement (op : Operation) (c : Circuit) :
    let m := (withRoom (c.placement op.qubits) c.moments)[c.placement op.qubits]?.getD .empty
    m.push op = .ok ⟨m.operations ++ [op]⟩ := by
  refine (Moment.push_eq_ok_iff _ _ _).mpr ⟨?_, rfl⟩
  by_cases hi : c.placement op.qubits = c.moments.length
  · simp [withRoom, hi, Moment.empty]
  · rw [withRoom, if_neg hi]
    cases hm : c.moments[c.placement op.qubits]? with
    | none => simp [Moment.empty]
    | some m => exact apart_of_placement hm

/-- Appending in place never fails, so no empty moment stays behind. -/
theorem appendInPlace_eq (op : Operation) (c : Circuit) :
    c.appendInPlace op = .settle c (c.append op) := by
  have hplaced : appended c.moments op = _ :=
    placed_eq_set op (placement_le_length c op.qubits)
  rw [append_eq_ok, hplaced, appendInPlace, Moment.pushInPlace_eq, push_placement op c]
  rfl

/-- Calls in place do what the calls that give a new circuit do, and what is refused changes
nothing. -/
theorem Call.inPlace_eq (k : Call) (c : Circuit) : k.inPlace c = .settle c (k.result c) := by
  have hchecked (r : Except BuildError Operation) :
      (match r with
        | .error e => (.error e, c)
        | .ok op => c.appendInPlace op) = Outcome.settle c (r >>= c.append) := by
    cases r with
    | error e => rfl
    | ok op => exact appendInPlace_eq op c
  cases k with
  | cz a b => exact hchecked (Operation.cz a b)
  | measure qs => exact hchecked (Operation.ofMeasure qs)
  | _ => exact appendInPlace_eq _ c

end Circuit

inductive Moment.Pushed : Moment → Prop where
  | empty : Moment.Pushed .empty
  | push {m : Moment} (h : Moment.Pushed m) (op : Operation) : Moment.Pushed (m.pushInPlace op).2

/-- A circuit that was made empty or of moments that were pushed to, after any calls. -/
inductive Circuit.Reached : Circuit → Prop where
  | empty : Circuit.Reached .empty
  | ofMoments {ms : List Moment} (h : ∀ m ∈ ms, m.Pushed) : Circuit.Reached ⟨ms⟩
  | pushMoment {c : Circuit} (h : Circuit.Reached c) {m : Moment} (hm : m.Pushed) :
    Circuit.Reached (c.pushMoment m)
  | call {c : Circuit} (h : Circuit.Reached c) (k : Circuit.Call) : Circuit.Reached (k.inPlace c).2

/-- What a call leaves behind is the old value or the new one. -/
theorem Outcome.settle_cases {σ : Type} (old : σ) (r : Except BuildError σ) :
    (Outcome.settle old r).2 = old ∨ r = .ok (Outcome.settle old r).2 := by
  cases r with
  | error e => exact .inl rfl
  | ok s => exact .inr rfl

theorem Moment.Pushed.apart {m : Moment} (h : m.Pushed) :
    m.operations.Pairwise Operation.Apart := by
  induction h with
  | empty => exact .nil
  | @push m _ op ih =>
    rw [pushInPlace_eq]
    rcases Outcome.settle_cases m (m.push op) with hold | hnew
    · rwa [hold]
    · obtain ⟨hfree, hm⟩ := (push_eq_ok_iff _ _ op).mp hnew
      rw [hm]
      exact List.pairwise_append.mpr ⟨ih, List.pairwise_singleton _ _, by simpa using hfree⟩

namespace Circuit

/-- A call adds an operation or changes nothing. -/
theorem Call.result_eq_ok {k : Call} {c d : Circuit} (h : k.result c = .ok d) :
    ∃ op, d = ⟨appended c.moments op⟩ := by
  have happend (op : Operation) (h : c.append op = .ok d) : d = ⟨appended c.moments op⟩ :=
    (Except.ok.inj ((append_eq_ok c op).symm.trans h)).symm
  cases k with
  | cz a b =>
    obtain ⟨op, -, h⟩ := (bind_eq_ok_iff _ _ _).mp h
    exact ⟨op, happend op h⟩
  | measure qs =>
    obtain ⟨op, -, h⟩ := (bind_eq_ok_iff _ _ _).mp h
    exact ⟨op, happend op h⟩
  | _ => exact ⟨_, happend _ h⟩

/-- Whatever was called, no moment uses a qubit twice. -/
theorem Reached.apart {c : Circuit} (h : c.Reached) :
    ∀ m ∈ c.moments, m.operations.Pairwise Operation.Apart := by
  induction h with
  | empty => simp [Circuit.empty]
  | ofMoments h => exact fun m hm => (h m hm).apart
  | @pushMoment c _ m hm ih =>
    intro m' hm'
    rcases List.mem_append.mp hm' with hm' | hm'
    · exact ih m' hm'
    · rw [List.mem_singleton.mp hm']
      exact hm.apart
  | @call c _ k ih =>
    rw [Call.inPlace_eq]
    rcases Outcome.settle_cases c (k.result c) with hold | hnew
    · rwa [hold]
    · obtain ⟨op, hd⟩ := Call.result_eq_ok hnew
      rw [hd]
      exact apart_appended ih op

end Circuit

/-- What a reader can find are native operations, on one qubit or more and on none twice. -/
theorem Wiring.Finds.native {w : Wiring} {op : Operation} (h : w.Finds op) :
    op.Native ∧ op.qubits ≠ [] ∧ op.qubits.Nodup := by
  cases h with
  | @gate m g l q hg harity hq =>
    refine ⟨?_, by simp [Operation.qubits], by simp [Operation.qubits]⟩
    cases m <;> simp only [Mnemonic.gate?, Option.some.injEq, reduceCtorEq] at hg <;> subst hg
    · exact .x q
    · exact .y q
    · exact .rx q
    · exact .rxBack q
    · exact .ry q
    · exact .ryBack q
    · exact absurd harity (by decide)
  | @coupled r name lp lq p q hr hn hp hq hne =>
    have hcz : Operation.cz p q = .ok (.onCoupler [p, q]) :=
      (Operation.ofGate_eq_ok_iff _ _ _).mpr ⟨⟨rfl, by simpa using hne⟩, rfl⟩
    exact ⟨.cz hcz, by simp [Operation.onCoupler, Operation.qubits],
      by simpa [Operation.onCoupler, Operation.qubits] using hne⟩
  | measure hqs hne hnodup =>
    exact ⟨.measure ((Operation.ofMeasure_eq_ok_iff _ _).mpr ⟨⟨hne, hnodup⟩, rfl⟩), hne, hnodup⟩
  | delay hq ns => exact ⟨.delay _ ns, by simp [Operation.ofDelay, Operation.qubits],
      by simp [Operation.ofDelay, Operation.qubits]⟩
  | decoupling hd hq => exact ⟨.decoupling hd _, by simp [Operation.ofDecoupling, Operation.qubits],
      by simp [Operation.ofDecoupling, Operation.qubits]⟩

/-- No qubit is used by two operations of a moment, in a circuit that calls reach, be they refused
or not, and in one that was read from any text for any labels and couplers. What was read are
native operations on different qubits. A push that is refused leaves the moment as it was and
names the first qubit of the operation that the moment uses. -/
theorem Circuit.apart_of_reached_or_read :
    (∀ c : Circuit, c.Reached → ∀ m ∈ c.moments, m.operations.Pairwise Operation.Apart) ∧
    (∀ (w : Wiring) (filter : Option LineFilter) (source : String) (c : Circuit),
      Circuit.ofScript w filter source = .ok c → ∀ m ∈ c.moments,
        m.operations.Pairwise Operation.Apart ∧
        ∀ op ∈ m.operations, op.Native ∧ op.qubits ≠ [] ∧ op.qubits.Nodup) ∧
    ∀ (m m' : Moment) (op : Operation) (e : BuildError), m.pushInPlace op = (.error e, m') →
      m' = m ∧ ∃ front q back, op.qubits = front ++ q :: back ∧
        (∀ r ∈ front, m.operatesOn r = false) ∧ m.operatesOn q = true ∧
        e = .duplicateQubit q op.name := by
  refine ⟨fun c hc => hc.apart, fun w filter source c hc m hm => ?_, fun m m' op e h => ?_⟩
  · have hfound := found_of_ofScript hc m hm
    exact ⟨hfound.wellFormed.apart, fun op hop => (hfound.found op hop).native⟩
  · rw [Moment.pushInPlace_eq] at h
    cases hpush : m.push op with
    | ok new => exact absurd h (by simp [hpush, Outcome.settle])
    | error cause =>
      rw [hpush, Outcome.settle, Prod.mk.injEq, Except.error.injEq] at h
      obtain ⟨rfl, rfl⟩ := h
      exact ⟨rfl, (m.push_eq_error_iff op cause).mp hpush⟩

def Wiring.sharedQubit : Wiring := ⟨fun _ => some ⟨0⟩, none⟩

def Circuit.pastRefusals : Circuit :=
  [.x ⟨0⟩, .cz ⟨0⟩ ⟨0⟩, .measure [], .cz ⟨0⟩ ⟨1⟩].foldl
    (fun c (k : Circuit.Call) => (k.inPlace c).2) .empty

theorem Circuit.apart_pastRefusals :
    (∀ m ∈ pastRefusals.moments, m.operations.Pairwise Operation.Apart) ∧
    (∃ c, Circuit.ofScript .sharedQubit none "X a\nB A\nY b\n" = .ok c ∧
      ∀ m ∈ c.moments, ∀ op ∈ m.operations, op.Native) ∧
    ∃ e, (Moment.pushInPlace (.onCoupler [⟨1⟩, ⟨0⟩]) ⟨[.x ⟨0⟩]⟩) = (.error e, ⟨[.x ⟨0⟩]⟩) ∧
      ∃ front q back, [⟨1⟩, ⟨0⟩] = front ++ q :: back ∧
        (∀ r ∈ front, Moment.operatesOn ⟨[.x ⟨0⟩]⟩ r = false) ∧
        Moment.operatesOn ⟨[.x ⟨0⟩]⟩ q = true ∧ e = .duplicateQubit q (Gate.standard .cz).name := by
  obtain ⟨hreached, hread, hrefused⟩ := apart_of_reached_or_read
  have hcalls : pastRefusals.Reached := (((Reached.empty.call _).call _).call _).call _
  have hsome : (Circuit.ofScript .sharedQubit none "X a\nB A\nY b\n").toOption.isSome = true := by
    decide +kernel
  obtain ⟨c, hc⟩ := Option.isSome_iff_exists.mp hsome
  have hscript := (toOption_eq_some_iff _ _).mp hc
  have hpush : (Moment.pushInPlace (.onCoupler [⟨1⟩, ⟨0⟩]) ⟨[.x ⟨0⟩]⟩) =
      (.error (.duplicateQubit ⟨0⟩ (Gate.standard .cz).name), ⟨[.x ⟨0⟩]⟩) := rfl
  have hnative : ∀ m ∈ c.moments, ∀ op ∈ m.operations, op.Native :=
    fun m hm op hop => ((hread _ _ _ _ hscript m hm).2 op hop).1
  exact ⟨hreached _ hcalls, ⟨c, hscript, hnative⟩, _, hpush, (hrefused _ _ _ _ hpush).2⟩

end PulseScript
