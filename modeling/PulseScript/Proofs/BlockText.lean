import Mathlib
import PulseScript.Proofs.Causes
import PulseScript.Proofs.LineNumbers
import PulseScript.Proofs.RoundTrip

/-!
# Blocks keep their sequence and their label

The label of a block is quoted in a header, where a line feed and all that could end the header
early is escaped, and the header ends in a bracket, so nothing of it is trimmed. In the body each
line starts with a mnemonic, whatever the label is, and a line that starts with a word is no marker
and no header. So a block that was written is read as one statement, with the sequence and the label
that it was written for.
-/
namespace PulseScript

/-- Lines that spell one block, joined, are read as a program of that block. -/
theorem Program.ofText_contextLines {d : Decoupling} {label : String} {lines : List String}
    (hlabel : '\n' ∉ label.toList) (h : d.contextLines label = .ok lines)
    (filter : Option LineFilter) :
    Program.ofText filter ("\n".intercalate lines) =
      .ok ⟨[⟨1, .context ⟨d.gateContent, Decoupling.targetsContent label,
        (d.expand label).map fun l => lineText l.toList⟩⟩]⟩ := by
  have hne : lines ≠ [] := by
    rw [contextLines_eq h]
    exact List.cons_ne_nil _ _
  refine (ofText_eq_ok_iff _ _ _).mpr ⟨[_], ?_, rfl⟩
  rw [sourceLines_eq_numberedLines,
    textLines_intercalate hne (newline_notMem_contextLines hlabel h)]
  exact foldlM_contextLines h filter 1 []

theorem Decoupling.exists_contextLines {d : Decoupling} (h : d.validate = .ok ())
    (label : String) : ∃ lines, d.contextLines label = .ok lines := by
  rw [contextLines, h]
  exact ⟨_, rfl⟩

/-- The headers of a block that was written for a sequence that reads back decode to it. -/
theorem ContextBlock.decode_written {d : Decoupling} (hvalid : d.validate = .ok ())
    (hback : d.ReadsBack) (label : String) (body : List String) (n : Nat) :
    (ContextBlock.mk d.gateContent (Decoupling.targetsContent label) body).decode n =
      .ok (d, label) := by
  rw [decode_eq_ok_iff, Decoupling.labels_targetsContent label _ rfl,
    Decoupling.sequence_gateContent d _ rfl, (d.reread?_eq_some_self_iff).mpr hback]
  simp [hvalid]

/-- The lines that are written for a valid sequence and any label on one line are read, whatever is
filtered, as one statement: a block with the number of the first line, which decodes to that
sequence and that label if the durations of the sequence read back. Whatever decodes is a valid
sequence with exactly one label, and what does not is an invalid block at the line of its start
marker. -/
theorem ContextBlock.written_and_decoded :
    (∀ d label, d.validate = .ok () → d.ReadsBack → '\n' ∉ label.toList →
      ∃ lines block, d.contextLines label = .ok lines ∧
        (∀ filter, Program.ofText filter ("\n".intercalate lines) = .ok ⟨[⟨1, .context block⟩]⟩) ∧
        block.labels = .ok [label] ∧ ∀ n, block.decode n = .ok (d, label)) ∧
    (∀ (block : ContextBlock) n d label, block.decode n = .ok (d, label) →
      d.validate = .ok () ∧ block.labels = .ok [label]) ∧
    (∀ (block : ContextBlock) n e, block.decode n = .error e →
      ∃ fault, e = .invalidContext n fault) ∧
    ∀ filter source p n block, Program.ofText filter source = .ok p →
      ⟨n, .context block⟩ ∈ p.lines →
        ∃ l ∈ sourceLines source, l.number = n ∧ l.first = .comment contextStart := by
  refine ⟨fun d label hvalid hback hlabel => ?_, fun block n d label h => ?_,
    fun block n e h => invalidContext_of_decode h,
    fun filter source p n block h hb => Program.exists_start_of_context h hb⟩
  · obtain ⟨lines, hlines⟩ := Decoupling.exists_contextLines hvalid label
    refine ⟨lines, _, hlines, fun filter => Program.ofText_contextLines hlabel hlines filter,
      Decoupling.labels_targetsContent label _ rfl, fun n => ?_⟩
    exact decode_written hvalid hback label _ n
  · obtain ⟨hsequence, hlabels⟩ := (block.decode_eq_ok_iff n d label).mp h
    exact ⟨valid_of_sequence hsequence, hlabels⟩

/-- A label with a quote, a backslash, a hash, brackets and all that divides words on a line. -/
theorem ContextBlock.written_and_decoded_quoted : ∃ lines block,
    Decoupling.shortEcho.contextLines "\"# \\\t\r\x00]é " = .ok lines ∧
    Program.ofText (some ⟨["#", "X"]⟩) ("\n".intercalate lines) =
      .ok ⟨[⟨1, .context block⟩]⟩ ∧
    block.decode 1 = .ok (.shortEcho, "\"# \\\t\r\x00]é ") := by
  obtain ⟨lines, block, hlines, hread, -, hdecode⟩ := written_and_decoded.1 .shortEcho
    "\"# \\\t\r\x00]é " (by decide +kernel) (by decide +kernel) (by decide +kernel)
  exact ⟨lines, block, hlines, hread _, hdecode 1⟩

end PulseScript
