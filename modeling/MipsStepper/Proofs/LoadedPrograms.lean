import MipsStepper.Instruction.Record
import MipsStepper.Proofs.Insertion
import MipsStepper.Proofs.LabelResolution

/-!
# Loaded programs

A loaded program has instructions, and each of them is what its own text says
under the symbols of the whole program: decoding it again gives it back. The
text is what is left of one source line without its comment, its outer blanks
and its label. A defective instruction has its message and no operand, and no
label or target lies outside the program, but for the branch that leads
nowhere.
-/

set_option autoImplicit false

namespace MipsStepper
open Text (ofString)

namespace Draft

theorem trim_body (raw : Text) : Text.trim (body (strip raw)) = body (strip raw) := by
  unfold body
  split
  · rename_i h
    obtain ⟨tail, -, hrest, -⟩ := labelled?_eq_some h
    rw [hrest, Text.trim_trim]
  · exact Text.trim_trim _

theorem exists_of_mem_kept {s : Segment} {lines : List Text} {line : Text}
    (h : line ∈ kept s lines) :
    line ≠ [] ∧ Text.trim line = line ∧ '#' ∉ line ∧ ∃ raw ∈ lines, line.Sublist raw := by
  obtain ⟨hline, hne⟩ := List.mem_filter.mp h
  obtain ⟨code, hcode, rfl⟩ := List.mem_map.mp hline
  obtain ⟨raw, hraw, rfl, -⟩ := exists_of_mem_linesOf hcode
  have hcomment : '#' ∉ body (strip raw) := fun hmem =>
    hash_not_mem_strip raw ((body_sublist _).subset hmem)
  exact ⟨of_decide_eq_true hne, trim_body raw, hcomment, raw, hraw,
    (body_sublist _).trans (strip_sublist raw)⟩

end Draft

namespace Program

/-- An instruction as a loaded program holds it. A branch may lead nowhere, which
is the target minus one. -/
structure Holds (p : Program) (i : Instruction) : Prop where
  text_ne_nil : i.text ≠ []
  text_trimmed : Text.trim i.text = i.text
  text_hash : '#' ∉ i.text
  text_newline : '\n' ∉ i.text
  decoded : Instruction.decode p.symbols i.text = i
  error_iff : i.error ≠ [] ↔ i.operation.kind = .invalid ∨ i.operation.kind = .unsupported
  defective : i.error ≠ [] →
    i.record = { kind := i.operation.kind, defect? := i.operation.defect? }
  jump : i.operation.kind = .j → 0 ≤ i.record.target ∧ i.record.target ≤ p.size
  branch : i.operation.kind = .beq ∨ i.operation.kind = .bne →
    -1 ≤ i.record.target ∧ i.record.target ≤ p.size

structure WellFormed (p : Program) : Prop where
  nonempty : 1 ≤ p.size
  holds : ∀ i ∈ p.instructions, p.Holds i
  labels : ∀ l index, p.symbols.index? l = some index → 0 ≤ index ∧ index ≤ p.size

end Program

theorem Instruction.error_ne_nil_iff (i : Instruction) :
    i.error ≠ [] ↔ i.operation.kind = .invalid ∨ i.operation.kind = .unsupported := by
  constructor
  · intro h
    cases ho : i.operation with
    | defective d => cases d <;> simp [Operation.kind]
    | _ => simp [error, ho, Operation.defect?] at h
  · intro h
    obtain ⟨d, hd⟩ := Operation.exists_defect h
    rw [error, hd]
    exact d.message_ne_nil

theorem Operation.record_defective {o : Operation} (h : o.kind = .invalid ∨ o.kind = .unsupported) :
    o.record = { kind := o.kind, defect? := o.defect? } := by
  obtain ⟨d, rfl⟩ := exists_defect h
  rfl

theorem Operation.exists_target {o : Operation} (h : o.kind = .j) :
    ∃ target, o.target? = some target := by
  cases o with
  | jump l target => exact ⟨target, rfl⟩
  | arith op _ _ _ => cases op <;> cases h
  | branch c _ _ _ _ => cases c <;> cases h
  | defective d => cases d <;> cases h
  | _ => cases h

section Loaded
variable {source : Text} {p : Program}

theorem load_text (h : load source = .ok p) {i : Instruction} (hi : i ∈ p.instructions) :
    i.text ≠ [] ∧ Text.trim i.text = i.text ∧ '#' ∉ i.text ∧ '\n' ∉ i.text := by
  rw [load_instructions h] at hi
  obtain ⟨line, hline, rfl⟩ := List.mem_map.mp hi
  obtain ⟨hne, htrim, hhash, raw, hraw, hsub⟩ := Draft.exists_of_mem_kept hline
  have htext : (Instruction.decode p.symbols line).text = line := htrim
  have hnewline : '\n' ∉ line := fun hmem => not_mem_of_mem_splitOn hraw (hsub.subset hmem)
  rw [htext]
  exact ⟨hne, htrim, hhash, hnewline⟩

theorem load_record_target (h : load source = .ok p) {i : Instruction} (hi : i ∈ p.instructions)
    {target : Int} (ht : i.operation.target? = some target) :
    0 ≤ i.record.target ∧ i.record.target ≤ p.size := by
  have htarget : i.record.target = target := by
    simp [Instruction.record, Operation.record, Operation.fields, Fields.record, ht]
  rw [htarget]
  exact load_target_range h hi ht

theorem load_holds (h : load source = .ok p) {i : Instruction} (hi : i ∈ p.instructions) :
    p.Holds i := by
  obtain ⟨hne, htrim, hhash, hnewline⟩ := load_text h hi
  constructor
  · exact hne
  · exact htrim
  · exact hhash
  · exact hnewline
  · exact load_decode h hi
  · exact i.error_ne_nil_iff
  · exact fun herror => Operation.record_defective (i.error_ne_nil_iff.mp herror)
  · intro hkind
    obtain ⟨target, ht⟩ := Operation.exists_target hkind
    exact load_record_target h hi ht
  · intro _
    cases ht : i.operation.target? with
    | none =>
      have htarget : i.record.target = -1 := by
        simp [Instruction.record, Operation.record, Operation.fields, Fields.record, ht]
      omega
    | some target =>
      have hrange := load_record_target h hi ht
      omega

/-- Every program that is loaded is well formed and a fixed point of decoding. -/
theorem load_wellFormed (h : load source = .ok p) : p.WellFormed := by
  have hlines : (Draft.ofSource source).lines ≠ [] := by
    intro hnone
    rw [load, if_pos hnone] at h
    cases h
  constructor
  · rw [load_size h]
    exact List.length_pos_iff.mpr hlines
  · exact fun i hi => load_holds h hi
  · exact fun l index hl => load_index?_range h hl

/-- A jump to the end, a branch to a label that is not there, a line with a label
and a comment whose operand denotes nothing, and a line of no form. -/
theorem load_wellFormed_defects :
    let source := ofString
      "j end\nbeq $t0, $t1, b\n a:  LI $t0 , x2 # note\nnop\n.data\nb: .word 1\n.text\nend:"
    ∃ p, load source = .ok p ∧ p.WellFormed ∧
      p.instructions.map (fun i => (i.text, i.record)) =
        [(ofString "j end", { kind := .j, label := ofString "end", target := 4 }),
          (ofString "beq $t0, $t1, b", { kind := .beq, rs := 8, rt := 9, label := ofString "b" }),
          (ofString "LI $t0 , x2",
            { kind := .invalid, defect? := some (.immediate (ofString "x2")) }),
          (ofString "nop", { kind := .unsupported, defect? := some (.form (ofString "nop")) })] := by
  intro source
  have h : load source = .ok (Draft.ofSource source).program :=
    load_of_lines rfl (by decide +kernel)
  exact ⟨_, h, load_wellFormed h, by decide +kernel⟩

end Loaded

end MipsStepper
