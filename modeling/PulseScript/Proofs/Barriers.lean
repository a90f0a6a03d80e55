import Mathlib
import PulseScript.Proofs.MomentLines
import PulseScript.Proofs.RoundTrip

/-!
# The barriers of a script

Every moment ends with a barrier. Moments without nested lines write their own; the others
leave it to the last nested moment, so a nested circuit costs as many barriers as it has
moments, times its repetitions, and the moment around it none of its own. Nothing else in
a script starts like a barrier.
-/
namespace PulseScript

mutual
/-- How many barriers the lines of an operation have. -/
def operationBarriers : Operation → Nat
  | .act .. => 0
  | .subcircuit ⟨ms⟩ n _ => n.toNat * momentsBarriers ms

def operationsBarriers : List Operation → Nat
  | [] => 0
  | op :: ops => operationBarriers op + operationsBarriers ops

/-- How many barriers the lines of moments have: those of their nested circuits, but at least
one for each moment. -/
def momentsBarriers : List Moment → Nat
  | [] => 0
  | ⟨ops⟩ :: ms => max 1 (operationsBarriers ops) + momentsBarriers ms
end

theorem operationBarriers_subcircuit (c : Circuit) (n : UInt32) (qs : List Qubit) :
    operationBarriers (.subcircuit c n qs) = n.toNat * momentsBarriers c.moments := by
  obtain ⟨ms⟩ := c
  rw [operationBarriers]

/-- The first word of the line is that of a barrier. -/
def startsBarrier (line : List Char) : Bool :=
  (lineWords line).head? == some Mnemonic.barrier.text

structure IsPlain (line : String) : Prop where
  single : '\n' ∉ line.toList
  notBarrier : startsBarrier line.toList = false

theorem Mnemonic.text_inj {m n : Mnemonic} (h : m.text = n.text) : m = n :=
  Option.some.inj ((ofText?_text m).symm.trans ((congrArg ofText? h).trans (ofText?_text n)))

namespace Mnemonic.Opens

variable {m : Mnemonic} {line : String}

theorem single (h : m.Opens line) : '\n' ∉ line.toList := by
  obtain ⟨w, ws, hwords, rfl⟩ := h.isWordLine
  exact newline_notMem_words hwords

/-- A line starts like a barrier only with the mnemonic of a barrier. -/
theorem startsBarrier_iff (h : m.Opens line) : startsBarrier line.toList = true ↔ m = .barrier := by
  obtain ⟨args, hargs, rfl⟩ := h
  rw [startsBarrier, lineWords_words (List.forall_mem_cons.mpr ⟨m.isWord_text, hargs⟩)]
  simp only [List.head?_cons, beq_iff_eq, Option.some.injEq]
  exact ⟨text_inj, fun h => h ▸ rfl⟩

theorem isPlain (h : m.Opens line) (hm : m ≠ .barrier) : IsPlain line :=
  ⟨h.single, by simpa [← h.startsBarrier_iff] using hm⟩

end Mnemonic.Opens

/-- A comment is no barrier. -/
theorem startsBarrier_of_hash {line : String} (h : line.toList.head? = some '#') :
    startsBarrier line.toList = false := by
  obtain ⟨cs, hcs⟩ := List.head?_eq_some_iff.mp h
  simp [hcs, startsBarrier, lineWords, splitRuns]

/-- The lines of a block are comments, pulses and idle time. -/
theorem isPlain_of_contextLines {d : Decoupling} {label : String} {lines : List String}
    (hlabel : IsWord label) (h : d.contextLines label = .ok lines) : ∀ l ∈ lines, IsPlain l := by
  have hheader : ∀ (k : ContextHeader) (content : String),
      startsBarrier (k.opening ++ content).toList = false := by
    intro k content
    refine startsBarrier_of_hash ?_
    rw [String.toList_append]
    cases k <;> rfl
  intro l hl
  refine ⟨newline_notMem_contextLines hlabel.newline_notMem h l hl, ?_⟩
  rw [contextLines_eq h] at hl
  simp only [List.mem_cons, List.mem_append, List.not_mem_nil, or_false] at hl
  rcases hl with rfl | rfl | rfl | hl | rfl
  · exact startsBarrier_of_hash rfl
  · exact hheader .gate _
  · exact hheader .targets _
  · rcases opens_of_mem_expand hlabel hl with hidle | ⟨axis, hpulse⟩
    · exact (hidle.isPlain (by decide)).notBarrier
    · exact (hpulse.isPlain (by cases axis <;> decide)).notBarrier
  · exact startsBarrier_of_hash rfl

namespace Target

structure Wordy (t : Target) : Prop extends t.NamesAgents where
  labels : ∀ q l, t.labelOf? q = some l → IsWord l
  couplers : ∀ r, t.couplers = some r → ∀ a b name, r.nameFor? a b = some name → IsWord name

/-- Lines that are barriers or plain, and the last of which, if there is any, is a barrier. -/
structure Closed (t : Target) (lines : List String) : Prop where
  each : ∀ l ∈ lines, l = t.barrier ∨ IsPlain l
  last : lines ≠ [] → lines.getLast? = some t.barrier

variable {t : Target}

theorem startsBarrier_barrier (t : Target) : startsBarrier t.barrier.toList = true := by
  rw [startsBarrier, ← wordsOf_lineTokens, NamesAgents.lineTokens_barrier]
  rfl

theorem ne_barrier (t : Target) {line : String} (hl : IsPlain line) : line ≠ t.barrier := by
  rintro rfl
  exact absurd t.startsBarrier_barrier (by simp [hl.notBarrier])

theorem count_plain (t : Target) {lines : List String} (hl : ∀ l ∈ lines, IsPlain l) :
    lines.count t.barrier = 0 :=
  List.count_eq_zero.mpr fun hmem => t.ne_barrier (hl _ hmem) rfl

namespace Closed

theorem nil : t.Closed [] := ⟨by simp, by simp⟩

theorem append {front back : List String} (hf : t.Closed front) (hb : t.Closed back) :
    t.Closed (front ++ back) := by
  constructor
  · intro l hl
    rcases List.mem_append.mp hl with hl | hl
    · exact hf.each l hl
    · exact hb.each l hl
  · intro hne
    by_cases he : back = []
    · subst he
      simpa using hf.last (by simpa using hne)
    · rw [List.getLast?_append_of_ne_nil _ he]
      exact hb.last he

theorem flatten {groups : List (List String)} (h : ∀ g ∈ groups, t.Closed g) :
    t.Closed groups.flatten := by
  induction groups with
  | nil => exact nil
  | cons g groups ih =>
    rw [List.flatten_cons]
    exact (h g (by simp)).append (ih fun k hk => h k (List.mem_cons_of_mem g hk))

/-- Plain lines in front of closed ones are closed by them. -/
theorem absorb {front back : List String} (hf : ∀ l ∈ front, IsPlain l) (hb : t.Closed back)
    (hne : back ≠ []) : t.Closed (front ++ back) := by
  constructor
  · intro l hl
    rcases List.mem_append.mp hl with hl | hl
    · exact .inr (hf l hl)
    · exact hb.each l hl
  · intro _
    rw [List.getLast?_append_of_ne_nil _ hne]
    exact hb.last hne

/-- Closed lines without a barrier are none. -/
theorem count_eq_zero_iff {lines : List String} (h : t.Closed lines) :
    lines.count t.barrier = 0 ↔ lines = [] := by
  constructor
  · intro hcount
    by_contra hne
    exact List.count_eq_zero.mp hcount (List.mem_of_getLast? (h.last hne))
  · rintro rfl
    rfl

end Closed
end Target

/-- What an operation adds: plain lines for itself, words to measure, and closed lines with so
many barriers for its nested circuit. -/
structure Part.Barred (t : Target) (n : Nat) (p : Part) : Prop where
  entry : ∀ x, p.entry? = some x → ∀ l ∈ x.2, IsPlain l
  labels : ∀ l ∈ p.labels, IsWord l
  block : ∀ x, p.block? = some x → t.Closed x.2
  count : ((p.block?.map (·.2)).getD []).count t.barrier = n

variable {t : Target}

/-- An action adds no barrier. -/
theorem Target.Gives.barred (h : t.Wordy) {a : Action} {qs : List Qubit} {p : Part}
    (hp : t.Gives a qs p) : p.Barred t 0 := by
  have hentry : ∀ key lines, p = .entry key lines → ∀ l ∈ lines, IsPlain l := by
    rintro key lines rfl
    cases hp with
    | decoupling _ hl hd => exact isPlain_of_contextLines (h.labels _ _ hl) hd
    | @pulse _ m _ _ _ _ hm hl =>
      have hne : m ≠ .barrier := by
        rintro rfl
        exact absurd hm (by decide)
      simpa using (m.opens_one (h.labels _ _ hl)).isPlain hne
    | coupled _ _ _ hr hn =>
      simpa using (Mnemonic.opens_one .cz (h.couplers _ hr _ _ _ hn)).isPlain (by decide)
    | idle _ hl => simpa using (opens_idleLine (h.labels _ _ hl) _).isPlain (by decide)
  have hlabels : ∀ l ∈ p.labels, IsWord l := by
    cases hp with
    | measure _ hl =>
      intro l hmem
      obtain ⟨q, -, hq⟩ := forall₂_left_of_mem hl hmem
      exact h.labels q l hq
    | _ => exact fun l hl => absurd hl (by simp [Part.labels])
  have hblock : p.block? = none := by cases hp <;> rfl
  refine ⟨?_, hlabels, by simp [hblock], by simp [hblock]⟩
  intro x hx
  cases p with
  | entry key lines =>
    obtain rfl := Option.some.inj hx
    exact hentry key lines rfl
  | _ => exact absurd hx (by simp [Part.entry?])

/-- What is measured is one plain line, if anything is. -/
theorem isPlain_of_mem_measureLines {parts : List Part} (h : ∀ p ∈ parts, ∀ l ∈ p.labels, IsWord l) :
    ∀ l ∈ measureLines parts, IsPlain l := by
  have hwords : ∀ l ∈ (parts.flatMap Part.labels).mergeSort, IsWord l := by
    intro l hl
    obtain ⟨p, hp, hlp⟩ := List.mem_flatMap.mp (List.mem_mergeSort.mp hl)
    exact h p hp l hlp
  intro line hline
  unfold measureLines at hline
  split at hline
  · exact absurd hline (by simp)
  · rename_i hne
    obtain ⟨label, labels, hlist⟩ := List.exists_cons_of_ne_nil hne
    rw [List.mem_singleton.mp hline, hlist, ← String.intercalate_cons_cons, ← hlist]
    exact Mnemonic.Opens.isPlain ⟨_, hwords, rfl⟩ (by decide)

section Written

variable {ops : List Operation} {parts : List Part}

/-- What a moment writes before its nested circuits is plain. -/
theorem isPlain_of_mem_front (h : ∀ p ∈ parts, ∃ n, p.Barred t n) :
    ∀ l ∈ entryLines parts ++ measureLines parts, IsPlain l := by
  intro l hl
  rcases List.mem_append.mp hl with hl | hl
  · obtain ⟨x, hx, hlx⟩ := List.mem_flatMap.mp hl
    obtain ⟨p, hp, hpx⟩ := List.mem_filterMap.mp ((sortByKey_perm _).mem_iff.mp hx)
    obtain ⟨n, hn⟩ := h p hp
    exact hn.entry x hpx l hlx
  · refine isPlain_of_mem_measureLines (fun p hp => ?_) l hl
    obtain ⟨n, hn⟩ := h p hp
    exact hn.labels

theorem closed_blockLines (h : ∀ p ∈ parts, ∃ n, p.Barred t n) : t.Closed (blockLines parts) := by
  refine Target.Closed.flatten fun g hg => ?_
  obtain ⟨x, hx, rfl⟩ := List.mem_map.mp hg
  obtain ⟨p, hp, hpx⟩ := List.mem_filterMap.mp ((sortByKey_perm _).mem_iff.mp hx)
  obtain ⟨n, hn⟩ := h p hp
  exact hn.block x hpx

/-- The order of the nested circuits does not matter for the number of their barriers. -/
theorem count_blockLines
    (hparts : List.Forall₂ (fun op (p : Part) => p.Barred t (operationBarriers op)) ops parts) :
    (blockLines parts).count t.barrier = operationsBarriers ops := by
  rw [blockLines, ((sortByKey_perm _).flatMap_right _).count_eq]
  induction hparts with
  | nil => rfl
  | @cons op p ops parts hop _ ih =>
    rw [operationsBarriers, ← ih, ← hop.count, List.filterMap_cons]
    cases p.block? with
    | none => simp
    | some x => simp [List.flatMap_cons]

/-- The lines of a moment are closed, with the barriers of its nested circuits or one. -/
theorem Target.closed_written
    (hparts : List.Forall₂ (fun op (p : Part) => p.Barred t (operationBarriers op)) ops parts) :
    t.Closed (t.written parts) ∧
      (t.written parts).count t.barrier = max 1 (operationsBarriers ops) := by
  have hbarred : ∀ p ∈ parts, ∃ n, p.Barred t n := by
    intro p hp
    obtain ⟨op, -, hop⟩ := forall₂_left_of_mem hparts hp
    exact ⟨_, hop⟩
  have hfront := isPlain_of_mem_front hbarred
  have hblocks := closed_blockLines hbarred
  have hcount := count_blockLines hparts
  unfold Target.written
  by_cases hnil : blockLines parts = []
  · have hzero : operationsBarriers ops = 0 := by rw [← hcount, hnil]; rfl
    rw [if_pos hnil, hnil, List.append_nil, hzero]
    refine ⟨.absorb hfront ⟨by simp, by simp⟩ (by simp), ?_⟩
    rw [List.count_append, t.count_plain hfront]
    simp
  · have hpos : operationsBarriers ops ≠ 0 := by
      rw [← hcount]
      exact mt hblocks.count_eq_zero_iff.mp hnil
    rw [if_neg hnil, List.append_nil]
    refine ⟨.absorb hfront hblocks hnil, ?_⟩
    rw [List.count_append, t.count_plain hfront, hcount]
    omega

end Written

/-- The lines of moments are closed, with all barriers, if this is so for all operations. -/
theorem Target.closed_momentsLines {ms : List Moment} {lines : List String}
    (hops : ∀ m ∈ ms, ∀ op ∈ m.operations, ∀ p, t.settled? op = some p →
      p.Barred t (operationBarriers op)) (hlines : momentsLines t ms = .ok lines) :
    t.Closed lines ∧ lines.count t.barrier = momentsBarriers ms := by
  induction ms generalizing lines with
  | nil =>
    obtain rfl : [] = lines := by simpa [momentsLines] using hlines
    exact ⟨.nil, rfl⟩
  | cons m ms ih =>
    obtain ⟨_, ⟨parts, hparts, rfl⟩, rest, hrest, rfl⟩ :=
      (momentsLines_cons_eq_ok_iff_lays m ms lines).mp hlines
    obtain ⟨hfirst, hall⟩ := List.forall_mem_cons.mp hops
    obtain ⟨hback, hcount⟩ := ih hall hrest
    obtain ⟨hfront, hone⟩ := Target.closed_written (forall₂_imp_of_mem hparts hfirst)
    obtain ⟨ops⟩ := m
    exact ⟨hfront.append hback, by rw [List.count_append, hone, hcount, momentsBarriers]⟩

/-- Every operation adds its barriers. -/
theorem Target.Wordy.barred (h : t.Wordy) (op : Operation) {p : Part}
    (hp : t.settled? op = some p) : p.Barred t (operationBarriers op) := by
  induction op generalizing p with
  | act a qs => exact ((Target.settled?_act_eq_some_iff a qs p).mp hp).barred h
  | subcircuit c n qs ih =>
    obtain ⟨ms⟩ := c
    obtain ⟨key, -, ⟨rfl, rfl⟩ | ⟨-, inner, hinner, rfl⟩⟩ :=
      (Target.settled?_subcircuit_eq_some_iff _ n qs p).mp hp
    · refine ⟨by simp [Part.entry?], by simp [Part.labels], ?_, by simp [operationBarriers]⟩
      simpa using Target.Closed.nil
    · obtain ⟨hclosed, hcount⟩ :=
        Target.closed_momentsLines (fun m hm op hop _ hp => ih m hm op hop hp) hinner
      refine ⟨by simp [Part.entry?], by simp [Part.labels], ?_, ?_⟩
      · simpa using Target.Closed.flatten fun g hg => (List.eq_of_mem_replicate hg) ▸ hclosed
      · simp [List.count_flatten, hcount, operationBarriers]

/-- The lines of a script are those that were joined, and the empty one behind. -/
theorem splitLines_scriptText {lines : List String} (h : ∀ l ∈ lines, '\n' ∉ l.toList)
    (hne : lines ≠ []) :
    splitLines (scriptText lines).toList = lines.map String.toList ++ [[]] := by
  rw [scriptText, if_neg (by simpa using hne), String.toList_ofList, splitLines_closed lines h]

/-- In the script of closed lines just the barriers start like one. -/
theorem Target.Closed.countP_startsBarrier {lines : List String} (hc : t.Closed lines)
    (h : t.Wordy) (hne : lines ≠ []) :
    (splitLines (scriptText lines).toList).countP startsBarrier = lines.count t.barrier ∧
      (∀ l ∈ splitLines (scriptText lines).toList, startsBarrier l = true →
        l = t.barrier.toList) ∧
      ∃ front, splitLines (scriptText lines).toList = front ++ [t.barrier.toList, []] := by
  have hstarts : ∀ l ∈ lines, startsBarrier l.toList = (l == t.barrier) := by
    intro l hl
    rcases hc.each l hl with rfl | hplain
    · simp [t.startsBarrier_barrier]
    · simp [hplain.notBarrier, t.ne_barrier hplain]
  have hsingle : ∀ l ∈ lines, '\n' ∉ l.toList := by
    intro l hl
    rcases hc.each l hl with rfl | hplain
    · exact h.newline_notMem
    · exact hplain.single
  have hempty : startsBarrier [] = false := rfl
  rw [splitLines_scriptText hsingle hne]
  refine ⟨?_, ?_, ?_⟩
  · rw [List.countP_append, List.countP_map, List.count, List.countP_congr (q := (· == t.barrier))]
    · simp [hempty]
    · intro l hl
      simp [hstarts l hl]
  · intro l hl hstart
    rcases List.mem_append.mp hl with hl | hl
    · obtain ⟨line, hline, rfl⟩ := List.mem_map.mp hl
      rw [hstarts line hline, beq_iff_eq] at hstart
      rw [hstart]
    · rw [List.mem_singleton.mp hl, hempty] at hstart
      exact absurd hstart (by simp)
  · obtain ⟨front, hfront⟩ := List.getLast?_eq_some_iff.mp (hc.last hne)
    exact ⟨front.map String.toList, by simp [hfront]⟩

theorem momentsBarriers_eq_zero_iff (ms : List Moment) : momentsBarriers ms = 0 ↔ ms = [] := by
  cases ms with
  | nil => simp [momentsBarriers]
  | cons m ms =>
    obtain ⟨ops⟩ := m
    simp only [momentsBarriers, reduceCtorEq, iff_false]
    omega

/-- The lines of a circuit's script that start like a barrier, and its last line. -/
theorem Target.Wordy.script_barriers (h : t.Wordy) {c : Circuit} {s : String}
    (hs : c.toScript t = .ok s) :
    (splitLines s.toList).countP startsBarrier = momentsBarriers c.moments ∧
      (∀ l ∈ splitLines s.toList, startsBarrier l = true → l = t.barrier.toList) ∧
      (s = "\n" ↔ c.moments = []) ∧
      (c.moments ≠ [] → ∃ front, splitLines s.toList = front ++ [t.barrier.toList, []]) := by
  obtain ⟨-, -, lines, hlines, rfl⟩ := (Circuit.toScript_eq_ok_iff t c s).mp hs
  obtain ⟨hclosed, hcount⟩ := Target.closed_momentsLines (fun _ _ op _ _ hp => h.barred op hp) hlines
  have hnil : lines = [] ↔ c.moments = [] := by
    rw [← momentsBarriers_eq_zero_iff, ← hcount, hclosed.count_eq_zero_iff]
  by_cases hne : lines = []
  · have hempty : splitLines (scriptText []).toList = [[], []] := rfl
    have hstart : startsBarrier [] = false := rfl
    rw [hne, hempty, hnil.mp hne]
    exact ⟨rfl, by simp [hstart], by simp [scriptText], by simp⟩
  · obtain ⟨hstarts, heach, front, hlast⟩ := hclosed.countP_startsBarrier h hne
    refine ⟨hstarts.trans hcount, heach, ⟨fun hs => ?_, fun hc => absurd (hnil.mpr hc) hne⟩,
      fun _ => ⟨front, hlast⟩⟩
    -- the script of one empty line has no barrier behind which it could end
    have hmem : t.barrier.toList ∈ splitLines (scriptText lines).toList := by simp [hlast]
    rw [hs] at hmem
    have hblank : t.barrier.toList = [] := by simpa [splitLines] using hmem
    exact absurd hblank (by simp [Target.barrier, Mnemonic.text])

/-- The script of a circuit has, for all labels, coupler names and agents that are words, as
many lines with the first word of a barrier as its moments have barriers, whatever is
ignored. Each of them is the barrier line, which names all agents. A circuit without
moments has one empty line for its script, and any other script ends with a barrier. -/
theorem Circuit.barriers_of_toScript (t : Target) (c : Circuit) (s : String)
    (hlabels : ∀ q l, t.labelOf? q = some l → IsWord l)
    (hcouplers : ∀ r, t.couplers = some r → ∀ a b name, r.nameFor? a b = some name → IsWord name)
    (hagents : ∀ a ∈ t.agents, IsWord a) (h : c.toScript t = .ok s) :
    (splitLines s.toList).countP startsBarrier = momentsBarriers c.moments ∧
      (∀ l ∈ splitLines s.toList, startsBarrier l = true →
        l = ("B " ++ " ".intercalate t.agents).toList) ∧
      (s = "\n" ↔ c.moments = []) ∧
      (c.moments ≠ [] → ∃ front, splitLines s.toList =
        front ++ [("B " ++ " ".intercalate t.agents).toList, []]) ∧
      ∀ (policy : IgnorePolicy) (u : String), c.toScript { t with policy := policy } = .ok u →
        (splitLines u.toList).countP startsBarrier = (splitLines s.toList).countP startsBarrier := by
  have hagent : t.agents ≠ [] := ((toScript_eq_ok_iff t c s).mp h).1
  have hwordy : t.Wordy := ⟨.of_words hagent hagents, hlabels, hcouplers⟩
  obtain ⟨hcount, heach, hempty, hlast⟩ := hwordy.script_barriers h
  refine ⟨hcount, heach, hempty, hlast, fun policy u hu => ?_⟩
  have hother : Target.Wordy { t with policy := policy } :=
    ⟨.of_words hagent hagents, hlabels, hcouplers⟩
  rw [(hother.script_barriers hu).1, hcount]

theorem Circuit.barriers_of_toScript_besidePair :
    ∃ s, besidePair.toScript .joinedPair = .ok s ∧
      (splitLines s.toList).countP startsBarrier = 2 := by
  have hsome : (besidePair.toScript .joinedPair).toOption.isSome = true := by decide +kernel
  obtain ⟨s, hs⟩ := Option.isSome_iff_exists.mp hsome
  have hscript := (toOption_eq_some_iff _ _).mp hs
  have hnames : ∀ r, Target.joinedPair.couplers = some r → ∀ a b name,
      r.nameFor? a b = some name → IsWord name := by
    intro r hr a b name hn
    have hindex := (Wiring.understands_joinedPair.reachable r hr).indexed
    rcases hindex.pairFor?_of_nameFor? hn with hpair | hpair <;>
      exact Wiring.understands_joinedPair.names r hr name _ hpair
  have hlabels : ∀ q l, Target.joinedPair.labelOf? q = some l → IsWord l := by
    intro q l hl
    obtain rfl : q.text = l := Option.some.inj hl
    exact q.isWord_text
  have hcount := (barriers_of_toScript .joinedPair besidePair s hlabels hnames
    Wiring.understands_joinedPair.agents hscript).1
  exact ⟨s, hscript, hcount⟩

end PulseScript
