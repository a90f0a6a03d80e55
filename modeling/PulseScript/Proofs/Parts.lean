import Mathlib
import PulseScript.Script.Emission

/-!
# What an operation adds to its moment

The compiler looks at each operation of a moment by itself, and then puts the parts that
they have given in order. Here stands, once for all, which part an action can give, and
when the lines of moments are found.
-/
namespace PulseScript

theorem bind_eq_ok_iff {ε α β : Type} (x : Except ε α) (f : α → Except ε β) (b : β) :
    (x >>= f) = .ok b ↔ ∃ a, x = .ok a ∧ f a = .ok b := by
  cases x <;> simp [bind, Except.bind]

theorem pure_eq_ok_iff {ε α : Type} (a b : α) : (pure a : Except ε α) = .ok b ↔ a = b := by
  simp [pure, Except.pure]

theorem map_eq_ok_iff {ε α β : Type} (x : Except ε α) (f : α → β) (b : β) :
    x.map f = .ok b ↔ ∃ a, x = .ok a ∧ f a = b := by
  cases x <;> simp [Except.map]

/-- A list is mapped if each of its elements is. -/
theorem mapM_eq_ok_iff {ε α β : Type} (f : α → Except ε β) (xs : List α) (ys : List β) :
    xs.mapM f = .ok ys ↔ List.Forall₂ (fun x y => f x = .ok y) xs ys := by
  induction xs generalizing ys with
  | nil => rw [List.mapM_nil, pure_eq_ok_iff, List.forall₂_nil_left_iff, eq_comm]
  | cons x xs ih =>
    simp only [List.mapM_cons, bind_eq_ok_iff, pure_eq_ok_iff, ih]
    constructor
    · rintro ⟨y, hy, zs, hzs, rfl⟩
      exact .cons hy hzs
    · rintro (_ | ⟨hy, hys⟩)
      exact ⟨_, hy, _, hys, rfl⟩

theorem mapM_eq_some_iff {α β : Type} (f : α → Option β) (xs : List α) (ys : List β) :
    xs.mapM f = some ys ↔ List.Forall₂ (fun x y => f x = some y) xs ys := by
  induction xs generalizing ys with
  | nil => simp [eq_comm]
  | cons x xs ih =>
    simp only [List.mapM_cons, Option.bind_eq_bind, Option.bind_eq_some_iff, ih]
    constructor
    · rintro ⟨y, hy, zs, hzs, he⟩
      obtain rfl : y :: zs = ys := by simpa using he
      exact .cons hy hzs
    · rintro (_ | ⟨hy, hys⟩)
      exact ⟨_, hy, _, hys, rfl⟩

theorem exists_forall₂_mem_iff {α β : Type} (R : α → β → Prop) (P : β → Prop) (xs : List α) :
    (∃ ys, List.Forall₂ R xs ys ∧ ∀ y ∈ ys, P y) ↔ ∀ x ∈ xs, ∃ y, R x y ∧ P y := by
  induction xs with
  | nil => exact ⟨fun _ => by simp, fun _ => ⟨[], .nil, by simp⟩⟩
  | cons x xs ih =>
    rw [List.forall_mem_cons, ← ih]
    constructor
    · rintro ⟨_, hy | ⟨hy, hys⟩, hp⟩
      exact ⟨⟨_, hy, hp _ (by simp)⟩, _, hys, fun z hz => hp z (by simp [hz])⟩
    · rintro ⟨⟨y, hy, hpy⟩, ys, hys, hp⟩
      exact ⟨y :: ys, .cons hy hys, by simpa using ⟨hpy, hp⟩⟩

theorem exists_forall₂_iff {α β : Type} (R : α → β → Prop) (xs : List α) :
    (∃ ys, List.Forall₂ R xs ys) ↔ ∀ x ∈ xs, ∃ y, R x y := by
  simpa using exists_forall₂_mem_iff R (fun _ => True) xs

theorem forall₂_right_of_mem {α β : Type} {R : α → β → Prop} {xs : List α} {ys : List β}
    (h : List.Forall₂ R xs ys) {x : α} (hx : x ∈ xs) : ∃ y ∈ ys, R x y := by
  induction h with
  | nil => exact absurd hx (by simp)
  | cons hr _ ih =>
    rcases List.mem_cons.mp hx with rfl | hx
    · exact ⟨_, by simp, hr⟩
    · obtain ⟨y, hy, hxy⟩ := ih hx
      exact ⟨y, List.mem_cons_of_mem _ hy, hxy⟩

theorem forall₂_left_of_mem {α β : Type} {R : α → β → Prop} {xs : List α} {ys : List β}
    (h : List.Forall₂ R xs ys) {y : β} (hy : y ∈ ys) : ∃ x ∈ xs, R x y :=
  forall₂_right_of_mem h.flip hy

theorem forall₂_left_getElem? {α β : Type} {R : α → β → Prop} {xs : List α} {ys : List β}
    (h : List.Forall₂ R xs ys) {k : Nat} {y : β} (hy : ys[k]? = some y) :
    ∃ x, xs[k]? = some x ∧ R x y := by
  induction h generalizing k with
  | nil => exact absurd hy (by simp)
  | cons hxy _ ih =>
    cases k with
    | zero =>
      obtain rfl := Option.some.inj hy
      exact ⟨_, rfl, hxy⟩
    | succ k => exact ih hy

theorem forall₂_imp_of_mem {α β : Type} {R S : α → β → Prop} {xs : List α} {ys : List β}
    (h : List.Forall₂ R xs ys) (himp : ∀ x ∈ xs, ∀ y, R x y → S x y) : List.Forall₂ S xs ys := by
  induction h with
  | nil => exact .nil
  | cons hr _ ih =>
    exact .cons (himp _ (by simp) _ hr) (ih fun x hx => himp x (List.mem_cons_of_mem _ hx))

theorem bind_eq_error_iff {ε α β : Type} (x : Except ε α) (f : α → Except ε β) (e : ε) :
    (x >>= f) = .error e ↔ x = .error e ∨ ∃ a, x = .ok a ∧ f a = .error e := by
  cases x <;> simp [bind, Except.bind]

theorem map_eq_error_iff {ε α β : Type} (x : Except ε α) (f : α → β) (e : ε) :
    x.map f = .error e ↔ x = .error e := by
  cases x <;> simp [Except.map]

theorem pure_ne_error {ε α : Type} (a : α) (e : ε) : (pure a : Except ε α) ≠ .error e := nofun

theorem bind_ne_error {ε α β : Type} {x : Except ε α} {f : α → Except ε β} {e : ε}
    (hx : x ≠ .error e) (hf : ∀ a, f a ≠ .error e) : (x >>= f) ≠ .error e := fun h =>
  ((bind_eq_error_iff x f e).mp h).elim hx fun ⟨a, _, ha⟩ => hf a ha

/-- A list is not mapped because one of its elements is not. -/
theorem exists_of_mapM_eq_error {ε α β : Type} {f : α → Except ε β} {xs : List α} {e : ε}
    (h : xs.mapM f = .error e) : ∃ x ∈ xs, f x = .error e := by
  induction xs with
  | nil => exact absurd h (by simp [pure_ne_error])
  | cons x xs ih =>
    rw [List.mapM_cons, bind_eq_error_iff] at h
    rcases h with h | ⟨y, -, h⟩
    · exact ⟨x, by simp, h⟩
    · by_cases hxs : xs.mapM f = .error e
      · obtain ⟨z, hz, he⟩ := ih hxs
        exact ⟨z, List.mem_cons_of_mem x hz, he⟩
      · exact absurd h (bind_ne_error hxs fun _ => pure_ne_error _ e)

/-- What every step keeps is kept by the whole run. -/
theorem foldlM_keeps {ε α σ : Type} {P : σ → Prop} {f : σ → α → Except ε σ} {xs : List α}
    (hstep : ∀ x ∈ xs, ∀ s s', P s → f s x = .ok s' → P s') {s s' : σ} (hs : P s)
    (h : xs.foldlM f s = .ok s') : P s' := by
  induction xs generalizing s with
  | nil =>
    obtain rfl : s = s' := by simpa [pure_eq_ok_iff] using h
    exact hs
  | cons x xs ih =>
    rw [List.foldlM_cons, bind_eq_ok_iff] at h
    obtain ⟨next, hnext, h⟩ := h
    exact ih (fun y hy => hstep y (List.mem_cons_of_mem x hy)) (hstep x (by simp) s next hs hnext) h

/-- Two folds over related lists end in related states if one step after the other keeps the
relation and the second follows wherever the first one goes. -/
theorem foldlM_follows {ε α β σ τ : Type} {Q : α → β → Prop} {R : σ → τ → Prop}
    {f : σ → α → Except ε σ} {g : τ → β → Except ε τ}
    (hstep : ∀ a b s t s', Q a b → R s t → f s a = .ok s' → ∃ t', g t b = .ok t' ∧ R s' t')
    {xs : List α} {ys : List β} (h : List.Forall₂ Q xs ys) {s s' : σ} {t : τ} (hst : R s t)
    (hs : xs.foldlM f s = .ok s') : ∃ t', ys.foldlM g t = .ok t' ∧ R s' t' := by
  induction h generalizing s t with
  | nil =>
    obtain rfl : s = s' := by simpa [pure_eq_ok_iff] using hs
    exact ⟨t, rfl, hst⟩
  | @cons a b xs ys hab _ ih =>
    rw [List.foldlM_cons, bind_eq_ok_iff] at hs
    obtain ⟨next, hnext, hs⟩ := hs
    obtain ⟨u, hu, hrel⟩ := hstep a b s t next hab hst hnext
    obtain ⟨t', ht', hend⟩ := ih hrel hs
    exact ⟨t', by rw [List.foldlM_cons, hu]; exact ht', hend⟩

/-- A run stops at a step, in the state that the steps before it lead to. -/
theorem exists_split_of_foldlM_eq_error {ε α σ : Type} {f : σ → α → Except ε σ} {xs : List α}
    {s : σ} {e : ε} (h : xs.foldlM f s = .error e) : ∃ before x after s',
      xs = before ++ x :: after ∧ before.foldlM f s = .ok s' ∧ f s' x = .error e := by
  induction xs generalizing s with
  | nil => exact absurd h (pure_ne_error s e)
  | cons x xs ih =>
    rw [List.foldlM_cons, bind_eq_error_iff] at h
    rcases h with h | ⟨next, hnext, h⟩
    · exact ⟨[], x, xs, s, rfl, rfl, h⟩
    · obtain ⟨before, y, after, s', rfl, hbefore, hy⟩ := ih h
      exact ⟨x :: before, y, after, s', rfl, by rw [List.foldlM_cons, hnext]; exact hbefore, hy⟩

theorem exists_of_foldlM_eq_error {ε α σ : Type} {f : σ → α → Except ε σ} {xs : List α} {s : σ}
    {e : ε} (h : xs.foldlM f s = .error e) : ∃ x ∈ xs, ∃ s', f s' x = .error e := by
  obtain ⟨before, x, after, s', rfl, -, hx⟩ := exists_split_of_foldlM_eq_error h
  exact ⟨x, by simp, s', hx⟩

theorem foldlM_congr {ε α σ : Type} {f g : σ → α → Except ε σ} {xs : List α}
    (h : ∀ x ∈ xs, ∀ s, f s x = g s x) (s : σ) : xs.foldlM f s = xs.foldlM g s := by
  induction xs generalizing s with
  | nil => rfl
  | cons x xs ih =>
    have hrest : xs.foldlM f = xs.foldlM g := funext (ih fun y hy => h y (by simp [hy]))
    rw [List.foldlM_cons, List.foldlM_cons, h x (by simp), hrest]

/-- A rotation becomes one of its three pulses, or nothing. -/
theorem resolveRotation_eq_instruction {a : Angle} {half quarter back m : Mnemonic}
    (h : resolveRotation a half quarter back = some (.instruction m)) :
    m = half ∨ m = quarter ∨ m = back := by
  unfold resolveRotation at h
  split at h
  · exact absurd h (by simp)
  · repeat' split at h
    · exact absurd h (by simp)
    · exact .inl (by simpa using h.symm)
    · exact .inr (.inl (by simpa using h.symm))
    · exact .inr (.inr (by simpa using h.symm))
    · exact absurd h (by simp)

/-- What has an instruction: gates on one qubit, one gate on a coupler, delays and
measurements. -/
theorem Action.resolve?_eq_instruction {a : Action} {m : Mnemonic}
    (h : a.resolve? = some (.instruction m)) :
    (∃ g, a = .gate (.standard g) ∧ g.arity = 1 ∧ m.operands = .qubit) ∨
      (a = .gate (.standard .cz) ∧ m = .cz) ∨ (∃ ns, a = .delay ns ∧ m = .idle) ∨
      (a = .measure ∧ m = .measure) := by
  cases a with
  | gate g =>
    cases g with
    | custom g => exact absurd h (by simp [resolve?])
    | standard g =>
      have hg : g.resolve? = some (.instruction m) := h
      cases g with
      | rx angle =>
        refine .inl ⟨_, rfl, rfl, ?_⟩
        rcases resolveRotation_eq_instruction hg with rfl | rfl | rfl <;> rfl
      | ry angle =>
        refine .inl ⟨_, rfl, rfl, ?_⟩
        rcases resolveRotation_eq_instruction hg with rfl | rfl | rfl <;> rfl
      | rz angle =>
        simp only [StandardGate.resolve?] at hg
        split at hg
        · exact absurd hg (by simp)
        · split at hg <;> exact absurd hg (by simp)
      | cz =>
        simp only [StandardGate.resolve?, Option.some.injEq, Resolution.instruction.injEq] at hg
        exact .inr (.inl ⟨rfl, hg.symm⟩)
      | _ =>
        simp only [StandardGate.resolve?, Option.some.injEq, Resolution.instruction.injEq,
          reduceCtorEq] at hg
        try exact .inl ⟨_, rfl, rfl, by subst hg; rfl⟩
  | measure =>
    simp only [resolve?, Option.some.injEq, Resolution.instruction.injEq] at h
    exact .inr (.inr (.inr ⟨rfl, h.symm⟩))
  | delay ns =>
    simp only [resolve?, Option.some.injEq, Resolution.instruction.injEq] at h
    exact .inr (.inr (.inl ⟨ns, rfl, h.symm⟩))
  | _ => exact absurd h (by simp [resolve?])

/-- An action needs a coupler exactly if it is the one gate on a coupler. -/
theorem Action.needsCoupler_iff (a : Action) : a.needsCoupler = true ↔ a = .gate (.standard .cz) := by
  constructor
  · intro h
    unfold needsCoupler at h
    split at h
    · rename_i m hm
      rcases resolve?_eq_instruction hm with ⟨g, rfl, -, ho⟩ | ⟨rfl, -⟩ | ⟨ns, rfl, rfl⟩ | ⟨rfl, rfl⟩
      · exact absurd h (by simp [ho])
      · rfl
      · exact absurd h (by decide)
      · exact absurd h (by decide)
    · exact absurd h (by decide)
  · rintro rfl
    rfl

namespace Target

variable (t : Target)

theorem label_eq_ok_iff (q : Qubit) (l : String) : t.label q = .ok l ↔ t.labelOf? q = some l := by
  unfold label
  cases t.labelOf? q <;> simp

theorem mapM_label_eq_ok_iff (qs : List Qubit) (ls : List String) :
    qs.mapM t.label = .ok ls ↔ List.Forall₂ (fun q l => t.labelOf? q = some l) qs ls := by
  simp only [mapM_eq_ok_iff, label_eq_ok_iff]

theorem singleLabel_eq_ok_iff (name : String) (qs : List Qubit) (l : String) :
    t.singleLabel name qs = .ok l ↔ ∃ q, qs = [q] ∧ t.labelOf? q = some l := by
  unfold singleLabel
  split
  · simp [label_eq_ok_iff]
  · rename_i hne
    constructor
    · exact fun h => absurd h (by simp)
    · rintro ⟨q, rfl, -⟩
      exact absurd rfl (hne q)

theorem coupler_eq_ok_iff (a b name : String) :
    t.coupler a b = .ok name ↔ ∃ r, t.couplers = some r ∧ r.nameFor? a b = some name := by
  unfold coupler
  cases t.couplers with
  | none => simp
  | some r => cases hn : r.nameFor? a b <;> simp [hn]

/-- The smallest label is found if all labels are. -/
theorem smallestLabel_isOk_iff (qs : List Qubit) :
    (∃ key, t.smallestLabel qs = .ok key) ↔ ∀ q ∈ qs, ∃ l, t.labelOf? q = some l := by
  rw [← exists_forall₂_iff]
  simp only [smallestLabel, bind_eq_ok_iff, mapM_label_eq_ok_iff]
  constructor
  · rintro ⟨_, ls, hls, -⟩
    exact ⟨ls, hls⟩
  · rintro ⟨ls, hls⟩
    cases ls with
    | nil => exact ⟨"", [], hls, rfl⟩
    | cons l ls => exact ⟨ls.foldl minLabel l, l :: ls, hls, rfl⟩

/-- The part of an action on its qubits. Nothing is said of actions that have none. -/
inductive Gives (t : Target) : Action → List Qubit → Part → Prop where
  | ignored {a : Action} {qs : List Qubit} (h : t.policy.ignoresAction a = true) :
    Gives t a qs .nothing
  | identity {a : Action} {qs : List Qubit} (h : t.policy.ignoresAction a = false)
    (hr : a.resolve? = some .identity) : Gives t a qs .nothing
  | measure {qs : List Qubit} {ls : List String} (h : t.policy.ignoresAction .measure = false)
    (hl : List.Forall₂ (fun q l => t.labelOf? q = some l) qs ls) : Gives t .measure qs (.measured ls)
  | decoupling {d : Decoupling} {q : Qubit} {l : String} {lines : List String}
    (h : t.policy.ignoresAction (.decoupling d) = false) (hl : t.labelOf? q = some l)
    (hd : d.contextLines l = .ok lines) : Gives t (.decoupling d) [q] (.entry l lines)
  | pulse {a : Action} {m : Mnemonic} {q : Qubit} {l : String}
    (h : t.policy.ignoresAction a = false) (hr : a.resolve? = some (.instruction m))
    (hm : m.operands = .qubit) (hl : t.labelOf? q = some l) :
    Gives t a [q] (.entry l [m.text ++ " " ++ l])
  | coupled {p q : Qubit} {lp lq name : String} {r : CouplerRegistry}
    (h : t.policy.ignoresAction (.gate (.standard .cz)) = false) (hp : t.labelOf? p = some lp)
    (hq : t.labelOf? q = some lq) (hr : t.couplers = some r) (hn : r.nameFor? lp lq = some name) :
    Gives t (.gate (.standard .cz)) [p, q]
      (.entry (minLabel lp lq) [Mnemonic.cz.text ++ " " ++ name])
  | idle {ns : UInt64} {q : Qubit} {l : String} (h : t.policy.ignoresAction (.delay ns) = false)
    (hl : t.labelOf? q = some l) : Gives t (.delay ns) [q] (.entry l [Decoupling.idleLine l ns])

theorem instruction_gives {a : Action} {m : Mnemonic} {qs : List Qubit} {part : Part}
    (hi : t.policy.ignoresAction a = false) (hr : a.resolve? = some (.instruction m))
    (ha : a ≠ .measure) (h : t.instruction m a qs = .ok part) : t.Gives a qs part := by
  rcases Action.resolve?_eq_instruction hr with ⟨g, rfl, -, ho⟩ | ⟨rfl, rfl⟩ | ⟨ns, rfl, rfl⟩ | ⟨rfl, rfl⟩
  · simp only [instruction, ho, bind_eq_ok_iff, pure_eq_ok_iff, singleLabel_eq_ok_iff] at h
    obtain ⟨l, ⟨q, rfl, hl⟩, rfl⟩ := h
    exact .pulse hi hr ho hl
  · match qs, h with
    | [p, q], h =>
      simp only [instruction, Mnemonic.operands, bind_eq_ok_iff, pure_eq_ok_iff, label_eq_ok_iff,
        coupler_eq_ok_iff] at h
      obtain ⟨lp, hp, lq, hq, name, ⟨r, hr, hn⟩, rfl⟩ := h
      exact .coupled hi hp hq hr hn
    | [], h => exact absurd h (by simp [instruction, Mnemonic.operands])
    | [_], h => exact absurd h (by simp [instruction, Mnemonic.operands])
    | _ :: _ :: _ :: _, h => exact absurd h (by simp [instruction, Mnemonic.operands])
  · simp only [instruction, Mnemonic.operands, bind_eq_ok_iff, pure_eq_ok_iff,
      singleLabel_eq_ok_iff] at h
    obtain ⟨l, ⟨q, rfl, hl⟩, rfl⟩ := h
    exact .idle hi hl
  · exact absurd rfl ha

/-- The part of an action that is looked up in the instruction table. -/
theorem actionPart_resolved {a : Action} {r : Resolution} (qs : List Qubit)
    (hi : t.policy.ignoresAction a = false) (hm : a ≠ .measure) (hr : a.resolve? = some r) :
    t.actionPart a qs = match r with
      | .instruction m => t.instruction m a qs
      | .identity => .ok .nothing := by
  unfold actionPart
  rw [if_neg (by simp [hi])]
  cases a with
  | measure => exact absurd rfl hm
  | decoupling d => exact absurd hr (by simp [Action.resolve?])
  | _ => simp only [hr]; cases r <;> rfl

/-- The compiler gives no other parts. -/
theorem gives_of_actionPart {a : Action} {qs : List Qubit} {part : Part}
    (h : t.actionPart a qs = .ok part) : t.Gives a qs part := by
  unfold actionPart at h
  cases hi : t.policy.ignoresAction a with
  | true =>
    rw [if_pos hi, Except.ok.injEq] at h
    subst h
    exact .ignored hi
  | false =>
    rw [if_neg (by simp [hi])] at h
    split at h
    · simp only [bind_eq_ok_iff, pure_eq_ok_iff, mapM_label_eq_ok_iff] at h
      obtain ⟨ls, hls, rfl⟩ := h
      exact .measure hi hls
    · simp only [bind_eq_ok_iff, pure_eq_ok_iff, singleLabel_eq_ok_iff] at h
      obtain ⟨l, ⟨q, rfl, hl⟩, lines, hlines, rfl⟩ := h
      exact .decoupling hi hl hlines
    · rename_i hm hd
      split at h
      · rename_i m hr
        exact t.instruction_gives hi hr hm h
      · rename_i hr
        rw [Except.ok.injEq] at h
        subst h
        exact .identity hi hr
      · exact absurd h (by simp)

/-- The compiler gives these parts. -/
theorem actionPart_of_gives {a : Action} {qs : List Qubit} {part : Part}
    (h : t.Gives a qs part) : t.actionPart a qs = .ok part := by
  cases h with
  | ignored h => exact if_pos h
  | identity h hr =>
    have hm : a ≠ .measure := by rintro rfl; exact absurd hr (by decide)
    rw [t.actionPart_resolved qs h hm hr]
  | measure h hl =>
    rw [actionPart, if_neg (by simp [h])]
    simp only [bind_eq_ok_iff, pure_eq_ok_iff, mapM_label_eq_ok_iff]
    exact ⟨_, hl, rfl⟩
  | decoupling h hl hd =>
    rw [actionPart, if_neg (by simp [h])]
    simp only [bind_eq_ok_iff, pure_eq_ok_iff, singleLabel_eq_ok_iff]
    exact ⟨_, ⟨_, rfl, hl⟩, _, hd, rfl⟩
  | pulse h hr hm hl =>
    have ha : a ≠ .measure := by
      rintro rfl
      simp only [Action.resolve?, Option.some.injEq, Resolution.instruction.injEq] at hr
      exact absurd hm (by simp [← hr, Mnemonic.operands])
    rw [t.actionPart_resolved _ h ha hr]
    simp only [instruction, hm, bind_eq_ok_iff, pure_eq_ok_iff, singleLabel_eq_ok_iff]
    exact ⟨_, ⟨_, rfl, hl⟩, rfl⟩
  | coupled h hp hq hr hn =>
    rw [t.actionPart_resolved _ h (by simp) (r := .instruction .cz) rfl]
    simp only [instruction, Mnemonic.operands, bind_eq_ok_iff, pure_eq_ok_iff, label_eq_ok_iff,
      coupler_eq_ok_iff]
    exact ⟨_, hp, _, hq, _, ⟨_, hr, hn⟩, rfl⟩
  | idle h hl =>
    rw [t.actionPart_resolved _ h (by simp) (r := .instruction .idle) rfl]
    simp only [instruction, Mnemonic.operands, bind_eq_ok_iff, pure_eq_ok_iff,
      singleLabel_eq_ok_iff]
    exact ⟨_, ⟨_, rfl, hl⟩, rfl⟩

/-- The part of an action, whatever its qubits. -/
theorem actionPart_eq_ok_iff (a : Action) (qs : List Qubit) (part : Part) :
    t.actionPart a qs = .ok part ↔ t.Gives a qs part :=
  ⟨t.gives_of_actionPart, t.actionPart_of_gives⟩

end Target

variable (t : Target)

theorem operationPart_act (a : Action) (qs : List Qubit) :
    operationPart t (.act a qs) = t.actionPart a qs := rfl

theorem operationPart_subcircuit_eq_ok_iff (c : Circuit) (n : UInt32) (qs : List Qubit)
    (part : Part) :
    operationPart t (.subcircuit c n qs) = .ok part ↔
      ∃ key, t.smallestLabel qs = .ok key ∧ part = .nested key n.toNat (momentsLines t c.moments) := by
  obtain ⟨ms⟩ := c
  simp only [operationPart, bind_eq_ok_iff, pure_eq_ok_iff, @eq_comm _ part]

theorem operationParts_eq_ok_iff (ops : List Operation) (parts : List Part) :
    operationParts t ops = .ok parts ↔
      List.Forall₂ (fun op part => operationPart t op = .ok part) ops parts := by
  induction ops generalizing parts with
  | nil => simp [operationParts, eq_comm]
  | cons op ops ih =>
    simp only [operationParts, bind_eq_ok_iff, pure_eq_ok_iff, ih]
    constructor
    · rintro ⟨part, hp, rest, hr, rfl⟩
      exact .cons hp hr
    · rintro (_ | ⟨hp, hr⟩)
      exact ⟨_, hp, _, hr, rfl⟩

theorem repetitions_eq_zero_iff (n : UInt32) : n.toNat = 0 ↔ n = 0 := by
  rw [← UInt32.toNat_inj]
  rfl

/-- No rule is about nested circuits. -/
theorem IgnorePolicy.ignores_subcircuit (p : IgnorePolicy) (c : Circuit) (n : UInt32)
    (qs : List Qubit) : p.ignores (.subcircuit c n qs) = false := by
  simp [ignores, IgnoreRule.matchesOperation]

theorem repeatLines_eq (n : Nat) (lines : List String) :
    repeatLines n lines = (List.replicate n lines).flatten := by
  cases lines <;> simp [repeatLines]

/-- The lines of a nested circuit, so many times over. What is repeated zero times gives no
lines even if the circuit has none. -/
def Repeats (x : String × Nat × Except ScriptError (List String)) (group : List String) : Prop :=
  (x.2.1 = 0 ∧ group = []) ∨
    (x.2.1 ≠ 0 ∧ ∃ inner, x.2.2 = .ok inner ∧ group = (List.replicate x.2.1 inner).flatten)

theorem nestedLines_eq_ok_iff (parts : List Part) (lines : List String) :
    nestedLines parts = .ok lines ↔
      ∃ groups, List.Forall₂ Repeats (sortByKey (parts.filterMap Part.nested?)) groups ∧
        lines = groups.flatten := by
  simp only [nestedLines, bind_eq_ok_iff, pure_eq_ok_iff, mapM_eq_ok_iff, @eq_comm _ lines]
  have hgroup : ∀ x group, ((if x.2.1 = 0 then pure [] else x.2.2.map (repeatLines x.2.1)) :
      Except ScriptError (List String)) = .ok group ↔ Repeats x group := by
    rintro ⟨key, n, result⟩ group
    by_cases hn : n = 0
    · simp only [hn, if_true, pure_eq_ok_iff, Repeats]
      simp [eq_comm]
    · cases result <;> simp [Repeats, hn, Except.map, repeatLines_eq, eq_comm]
  simp only [hgroup]

/-- A part whose lines are there if they are to be written. -/
def Part.Playable : Part → Prop
  | .nested _ n lines => n = 0 ∨ ∃ inner, lines = .ok inner
  | _ => True

/-- Nested lines are found if every nested circuit that is repeated has lines. -/
theorem nestedLines_isOk_iff (parts : List Part) :
    (∃ lines, nestedLines parts = .ok lines) ↔ ∀ part ∈ parts, part.Playable := by
  have hrepeats : ∀ x, (∃ group, Repeats x group) ↔ x.2.1 = 0 ∨ ∃ inner, x.2.2 = .ok inner := by
    rintro ⟨key, n, result⟩
    by_cases hn : n = 0 <;> cases result <;> simp [Repeats, hn]
  have hsorted : (∃ lines, nestedLines parts = .ok lines) ↔
      ∀ x ∈ sortByKey (parts.filterMap Part.nested?), ∃ group, Repeats x group := by
    rw [← exists_forall₂_iff]
    simp only [nestedLines_eq_ok_iff]
    exact ⟨fun ⟨_, groups, h, _⟩ => ⟨groups, h⟩, fun ⟨groups, h⟩ => ⟨_, groups, h, rfl⟩⟩
  rw [hsorted]
  simp only [sortByKey, List.mem_mergeSort, List.mem_filterMap, hrepeats]
  constructor
  · intro h part hpart
    cases part with
    | nested key n lines => exact h (key, n, lines) ⟨_, hpart, rfl⟩
    | _ => trivial
  · rintro h x ⟨part, hpart, hx⟩
    cases part with
    | nested key n lines =>
      have hp : Part.Playable (.nested key n lines) := h _ hpart
      obtain rfl : (key, n, lines) = x := by simpa [Part.nested?] using hx
      exact hp
    | _ => exact absurd hx (by simp [Part.nested?])

theorem partsLines_eq_ok_iff (parts : List Part) (lines : List String) :
    t.partsLines parts = .ok lines ↔
      ∃ nested, nestedLines parts = .ok nested ∧
        lines = entryLines parts ++ measureLines parts ++ nested ++
          if nested = [] then [t.barrier] else [] := by
  simp only [Target.partsLines, bind_eq_ok_iff, pure_eq_ok_iff, List.isEmpty_iff, @eq_comm _ lines]

theorem momentsLines_cons_eq_ok_iff (m : Moment) (ms : List Moment) (lines : List String) :
    momentsLines t (m :: ms) = .ok lines ↔
      ∃ parts, List.Forall₂ (fun op part => operationPart t op = .ok part) m.operations parts ∧
        ∃ front, t.partsLines parts = .ok front ∧
          ∃ rest, momentsLines t ms = .ok rest ∧ lines = front ++ rest := by
  obtain ⟨ops⟩ := m
  simp only [momentsLines, bind_eq_ok_iff, pure_eq_ok_iff, operationParts_eq_ok_iff,
    @eq_comm _ lines]

def Target.Compiles (op : Operation) : Prop :=
  ∃ part, operationPart t op = .ok part ∧ part.Playable

theorem partsLines_isOk_iff (ops : List Operation) :
    (∃ parts, List.Forall₂ (fun op part => operationPart t op = .ok part) ops parts ∧
      ∃ lines, t.partsLines parts = .ok lines) ↔ ∀ op ∈ ops, t.Compiles op := by
  have hlines : ∀ parts, (∃ lines, t.partsLines parts = .ok lines) ↔
      ∀ part ∈ parts, part.Playable := by
    intro parts
    rw [← nestedLines_isOk_iff]
    simp only [partsLines_eq_ok_iff]
    exact ⟨fun ⟨_, nested, h, _⟩ => ⟨nested, h⟩, fun ⟨nested, h⟩ => ⟨_, nested, h, rfl⟩⟩
  simp only [hlines]
  exact exists_forall₂_mem_iff _ _ ops

/-- The lines of moments are found if every operation of every moment compiles. -/
theorem momentsLines_isOk_iff (ms : List Moment) :
    (∃ lines, momentsLines t ms = .ok lines) ↔
      ∀ m ∈ ms, ∀ op ∈ m.operations, t.Compiles op := by
  induction ms with
  | nil => simp [momentsLines]
  | cons m ms ih =>
    rw [List.forall_mem_cons, ← ih, ← partsLines_isOk_iff]
    simp only [momentsLines_cons_eq_ok_iff]
    constructor
    · rintro ⟨_, parts, hp, front, hf, rest, hr, -⟩
      exact ⟨⟨parts, hp, front, hf⟩, rest, hr⟩
    · rintro ⟨⟨parts, hp, front, hf⟩, rest, hr⟩
      exact ⟨_, parts, hp, front, hf, rest, hr, rfl⟩

/-- A nested circuit compiles if its qubits have labels and, where it is repeated, its operations
compile. -/
theorem Target.compiles_subcircuit_iff (c : Circuit) (n : UInt32) (qs : List Qubit) :
    t.Compiles (.subcircuit c n qs) ↔ (∀ q ∈ qs, ∃ l, t.labelOf? q = some l) ∧
      (n ≠ 0 → ∀ m ∈ c.moments, ∀ op ∈ m.operations, t.Compiles op) := by
  rw [← momentsLines_isOk_iff, ← smallestLabel_isOk_iff]
  simp only [Compiles, operationPart_subcircuit_eq_ok_iff]
  constructor
  · rintro ⟨_, ⟨key, hkey, rfl⟩, hplay⟩
    exact ⟨⟨key, hkey⟩, fun hn => hplay.resolve_left (mt (repetitions_eq_zero_iff n).mp hn)⟩
  · rintro ⟨⟨key, hkey⟩, hinner⟩
    refine ⟨_, ⟨key, hkey, rfl⟩, ?_⟩
    by_cases hn : n = 0
    · exact .inl ((repetitions_eq_zero_iff n).mpr hn)
    · exact .inr (hinner hn)

/-- A circuit has a script if there is an agent, there are couplers or none is needed, and
its moments have lines. -/
theorem Circuit.toScript_eq_ok_iff (c : Circuit) (s : String) :
    c.toScript t = .ok s ↔
      t.agents ≠ [] ∧ (t.couplers.isSome ∨ c.needsCouplers t.policy = false) ∧
        ∃ lines, momentsLines t c.moments = .ok lines ∧ s = scriptText lines := by
  have hneed : ¬ (t.couplers.isNone && c.needsCouplers t.policy) = true ↔
      (t.couplers.isSome ∨ c.needsCouplers t.policy = false) := by
    cases t.couplers <;> simp
  unfold toScript lines
  rw [← hneed]
  by_cases ha : t.agents = []
  · simp [ha, Except.map]
  · rw [if_neg (by simpa using ha)]
    by_cases hc : (t.couplers.isNone && c.needsCouplers t.policy) = true
    · simp only [hc, if_true, Except.map]
      simp
    · rw [if_neg hc]
      cases momentsLines t c.moments with
      | error e => simp [Except.map]
      | ok found => simp [ha, hc, Except.map, @eq_comm _ s]

theorem Circuit.toScript_isOk_iff_compiles (c : Circuit) :
    (∃ s, c.toScript t = .ok s) ↔
      t.agents ≠ [] ∧ (t.couplers.isSome ∨ c.needsCouplers t.policy = false) ∧
        ∀ m ∈ c.moments, ∀ op ∈ m.operations, t.Compiles op := by
  simp only [toScript_eq_ok_iff, ← momentsLines_isOk_iff]
  constructor
  · rintro ⟨s, ha, hn, lines, hl, -⟩
    exact ⟨ha, hn, lines, hl⟩
  · rintro ⟨ha, hn, lines, hl⟩
    exact ⟨_, ha, hn, lines, hl, rfl⟩

end PulseScript
