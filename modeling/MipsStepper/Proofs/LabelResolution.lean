import MipsStepper.Proofs.Grammar
import MipsStepper.Proofs.Segments
import MipsStepper.Proofs.Targets

/-!
# Labels and their definitions

A text label is the number of instruction lines before its last definition in
the text segment, wherever it is used. Decoding waits for the whole source, so
a branch or a jump leads there from before the definition as from behind it.
Text labels and data labels do not meet: the one table comes from the lines of
code, the other from the lines of data, and every form reads only one of them.
-/

set_option autoImplicit false

namespace MipsStepper
open Text (ofString)

namespace Draft

/-- The line after `before` is the last that defines the text label. -/
def LastTextLabel (lines : List Text) (label : Text) (before : List Text) : Prop :=
  DefinesAt .text lines label before ∧
    ∀ other, DefinesAt .text lines label other → other.length ≤ before.length

section Definitions
variable {lines : List Text} {l : Text} {before : List Text}

theorem DefinesAt.length_lt {segment : Segment} (h : DefinesAt segment lines l before) :
    before.length < lines.length := by
  obtain ⟨raw, after, rfl, -⟩ := h
  simp

theorem lastTextLabel_concat (raw : Text) :
    LastTextLabel (lines ++ [raw]) l before ↔
      if lines.foldl segmentAfter .text = .text ∧ definedLabel? raw = some l then before = lines
      else LastTextLabel lines l before := by
  simp only [LastTextLabel, definesAt_concat]
  split_ifs with hdef
  · constructor
    · rintro ⟨hbefore, hlast⟩
      have hle := hlast lines (.inr ⟨rfl, hdef⟩)
      rcases hbefore with hbefore | ⟨rfl, -⟩
      · exact absurd hbefore.length_lt (Nat.not_lt.mpr hle)
      · rfl
    · rintro rfl
      refine ⟨.inr ⟨rfl, hdef⟩, ?_⟩
      rintro other (hother | ⟨rfl, -⟩)
      · exact Nat.le_of_lt hother.length_lt
      · exact Nat.le_refl _
  · simp [hdef]

/-- The table holds the last definition of every label, with the number of
instruction lines that were read before it. -/
theorem index?_ofLines_eq_some_iff (lines : List Text) (l : Text) (i : Int) :
    (ofLines lines).symbols.index? l = some i ↔
      ∃ before, LastTextLabel lines l before ∧ i = (kept .text before).length := by
  induction lines using List.reverseRecOn with
  | nil => simp [ofLines, Symbols.index?, LastTextLabel, DefinesAt]
  | append_singleton lines raw ih =>
    simp only [ofLines_concat, index?_read, ofLines_segment, lastTextLabel_concat]
    split_ifs with hdef
    · simp [lines_ofLines, eq_comm]
    · exact ih

end Definitions

end Draft

namespace Form
variable {s s' : Symbols} {f : Form}

def readsLabels : Form → Bool
  | .branch .. => true
  | .jump _ => true
  | _ => false

def readsDataLabels : Form → Bool
  | .la .. => true
  | .lw .. => true
  | .sw .. => true
  | _ => false

theorem operation_congr_labels (hf : f.readsLabels) (h : s.labels = s'.labels) :
    f.operation s = f.operation s' := by
  have hindex (l : Text) : s.index? l = s'.index? l := by rw [Symbols.index?, h, Symbols.index?]
  cases f with
  | branch c r t l => simp only [operation, hindex]
  | jump l => simp only [operation, hindex]
  | _ => cases hf

theorem operation_congr_dataLabels (hf : f.readsDataLabels) (h : s.dataLabels = s'.dataLabels) :
    f.operation s = f.operation s' := by
  have haddress (l : Text) : s.address? l = s'.address? l := by
    rw [Symbols.address?, h, Symbols.address?]
  have hmemory (x : Text) : Operand.memory? s x = Operand.memory? s' x := by
    simp only [Operand.memory?, Operand.absolute?, haddress]
  cases f with
  | la d l => simp only [operation, haddress]
  | lw d x => simp only [operation, hmemory]
  | sw r x => simp only [operation, hmemory]
  | _ => cases hf

end Form

theorem Instruction.decode_congr {s s' : Symbols} {f : Form} {text : Text} (hf : f.Written text)
    (h : f.operation s = f.operation s') : decode s text = decode s' text := by
  rw [decode_form hf, decode_form hf, h]

namespace Operation
variable {s : Symbols} {o : Operation}

theorem target_of_resolved (hkind : o.kind ∈ [Kind.beq, .bne, .j]) (h : o.ResolvedBy s) :
    o.target?.getD (-1) = (s.index? o.label).getD (-1) := by
  cases o with
  | branch c rs rt l target =>
    simp only [ResolvedBy] at h
    simp [target?, label, h]
  | jump l target =>
    simp only [ResolvedBy] at h
    simp [target?, label, h]
  | arith op rd rs rt => cases op <;> simp [kind] at hkind
  | defective d => cases d <;> simp [kind] at hkind
  | _ => simp [kind] at hkind

theorem index?_of_jump (hkind : o.kind = .j) (h : o.ResolvedBy s) : s.index? o.label ≠ none := by
  cases o with
  | jump l target =>
    simp only [ResolvedBy] at h
    simp [label, h]
  | arith op rd rs rt => cases op <;> cases hkind
  | branch c rs rt l target => cases c <;> cases hkind
  | defective d => cases d <;> cases hkind
  | _ => cases hkind

end Operation

theorem Draft.labels_congr {lines lines' : List Text} (h : codeLines lines = codeLines lines') :
    (ofLines lines).symbols.labels = (ofLines lines').symbols.labels := by
  rw [ofLines_eq_join lines, ofLines_eq_join lines', h]
  rfl

theorem Draft.dataLabels_congr {lines lines' : List Text} (h : dataLines lines = dataLines lines') :
    (ofLines lines).symbols.dataLabels = (ofLines lines').symbols.dataLabels := by
  rw [ofLines_eq_join lines, ofLines_eq_join lines', h]
  rfl

section Loaded
variable {source source' : Text} {p p' : Program}

theorem load_instructions (h : load source = .ok p) :
    p.instructions = (Draft.kept .text (source.splitOn '\n')).map (Instruction.decode p.symbols) := by
  rw [load_eq_ok h, ← Draft.lines_ofLines]
  rfl

theorem load_decode (h : load source = .ok p) {i : Instruction} (hi : i ∈ p.instructions) :
    Instruction.decode p.symbols i.text = i := by
  rw [load_instructions h] at hi
  obtain ⟨line, -, rfl⟩ := List.mem_map.mp hi
  exact Instruction.decode_trim p.symbols line

theorem load_index?_eq_some_iff (h : load source = .ok p) (l : Text) (i : Int) :
    p.symbols.index? l = some i ↔ ∃ before, Draft.LastTextLabel (source.splitOn '\n') l before ∧
      i = (Draft.kept .text before).length := by
  rw [load_eq_ok h]
  exact Draft.index?_ofLines_eq_some_iff _ l i

theorem load_target (h : load source = .ok p) {i : Instruction} (hi : i ∈ p.instructions)
    (hkind : i.operation.kind ∈ [Kind.beq, .bne, .j]) :
    i.fields.target = (p.symbols.index? i.operation.label).getD (-1) :=
  Operation.target_of_resolved hkind (load_resolved h hi)

/-- No index is minus one, so that this target says that there is none. -/
theorem load_index?_getD (h : load source = .ok p) (l : Text) :
    (p.symbols.index? l).getD (-1) = -1 ↔ p.symbols.index? l = none := by
  cases hl : p.symbols.index? l with
  | none => simp
  | some i =>
    have hrange := load_index?_range h hl
    simp only [Option.getD_some]
    constructor
    · intro hi
      omega
    · nofun

theorem load_jump_lost (h : load source = .ok p) {i : Instruction} (hi : i ∈ p.instructions)
    {l : Text} (hj : (Form.jump l).Written i.text) (hl : p.symbols.index? l = none) :
    i.operation = .defective (.label l) := by
  rw [← load_decode h hi, decode_form hj, Form.operation, hl]
  rfl

/-- The data segment is of no account for branches and jumps. -/
theorem load_branches_congr (h : load source = .ok p) (h' : load source' = .ok p')
    (hcode : Draft.codeLines (source.splitOn '\n') = Draft.codeLines (source'.splitOn '\n')) :
    p.symbols.labels = p'.symbols.labels ∧
      ∀ (k : Nat) (i : Instruction), p.instructions[k]? = some i →
        (∃ f : Form, f.readsLabels ∧ f.Written i.text) → p'.instructions[k]? = some i := by
  have hlabels : p.symbols.labels = p'.symbols.labels := by
    rw [load_eq_ok h, load_eq_ok h']
    exact Draft.labels_congr hcode
  have hkept : Draft.kept .text (source.splitOn '\n') = Draft.kept .text (source'.splitOn '\n') :=
    congrArg (fun lines => (lines.map Draft.body).filter (· ≠ [])) hcode
  refine ⟨hlabels, fun k i hi ⟨f, hf, hwritten⟩ => ?_⟩
  have hdecode := load_decode h (List.mem_of_getElem? hi)
  have hsame := Instruction.decode_congr hwritten (Form.operation_congr_labels hf hlabels)
  rw [load_instructions h, hkept, List.getElem?_map, Option.map_eq_some_iff] at hi
  obtain ⟨line, hline, htext⟩ := hi
  have htrim : i.text = Text.trim line := by rw [← htext]; rfl
  rw [load_instructions h', List.getElem?_map, hline, Option.map_some,
    ← Instruction.decode_trim, ← htrim, ← hsame, hdecode]

theorem load_accesses_congr (h : load source = .ok p) (h' : load source' = .ok p')
    (hdata : Draft.dataLines (source.splitOn '\n') = Draft.dataLines (source'.splitOn '\n')) :
    p.symbols.dataLabels = p'.symbols.dataLabels ∧
      ∀ i ∈ p.instructions, (∃ f : Form, f.readsDataLabels ∧ f.Written i.text) →
        Instruction.decode p'.symbols i.text = i := by
  have hlabels : p.symbols.dataLabels = p'.symbols.dataLabels := by
    rw [load_eq_ok h, load_eq_ok h']
    exact Draft.dataLabels_congr hdata
  refine ⟨hlabels, fun i hi ⟨f, hf, hwritten⟩ => ?_⟩
  rw [← Instruction.decode_congr hwritten (Form.operation_congr_dataLabels hf hlabels)]
  exact load_decode h hi

/-- Labels of a loaded source. A text label is known just if a line of the text
segment defines it, and it is the number of instruction lines before the last
line that does. Every branch and jump to it leads there, a branch to an unknown
label leads nowhere, and a jump to one is invalid. Whatever the data segment
holds, the text labels, the branches and the jumps are the same, and whatever
the text segment holds, the data labels, loads and stores are. -/
theorem load_labels (h : load source = .ok p) :
    let lines := source.splitOn '\n'
    p.instructions = (Draft.kept .text lines).map (Instruction.decode p.symbols) ∧
    (∀ l, p.symbols.index? l ≠ none ↔ Draft.TextLabel lines l) ∧
    (∀ l i, p.symbols.index? l = some i ↔
      ∃ before, Draft.LastTextLabel lines l before ∧ i = (Draft.kept .text before).length) ∧
    (∀ i ∈ p.instructions, i.operation.kind ∈ [Kind.beq, .bne, .j] →
      (∀ before, Draft.LastTextLabel lines i.operation.label before →
        i.fields.target = (Draft.kept .text before).length) ∧
      (i.fields.target = -1 ↔ ¬ Draft.TextLabel lines i.operation.label) ∧
      (i.operation.kind = .j → Draft.TextLabel lines i.operation.label)) ∧
    (∀ i ∈ p.instructions, ∀ l, (Form.jump l).Written i.text → ¬ Draft.TextLabel lines l →
      i.operation.kind = .invalid ∧ i.error = ofString "Unknown label: " ++ l) ∧
    ∀ source' p', load source' = .ok p' →
      (Draft.codeLines lines = Draft.codeLines (source'.splitOn '\n') →
        p.symbols.labels = p'.symbols.labels ∧
          ∀ (k : Nat) (i : Instruction), p.instructions[k]? = some i →
            (∃ f : Form, f.readsLabels ∧ f.Written i.text) → p'.instructions[k]? = some i) ∧
      (Draft.dataLines lines = Draft.dataLines (source'.splitOn '\n') →
        p.symbols.dataLabels = p'.symbols.dataLabels ∧
          ∀ i ∈ p.instructions, (∃ f : Form, f.readsDataLabels ∧ f.Written i.text) →
            Instruction.decode p'.symbols i.text = i) := by
  intro lines
  have hunknown (l : Text) : p.symbols.index? l = none ↔ ¬ Draft.TextLabel lines l :=
    load_index?_eq_none_iff h l
  have hknown (l : Text) : p.symbols.index? l ≠ none ↔ Draft.TextLabel lines l := by
    rw [ne_eq, hunknown, not_not]
  refine ⟨load_instructions h, hknown, load_index?_eq_some_iff h, fun i hi hkind => ?_,
    fun i hi l hj hl => ?_, fun source' p' h' => ?_⟩
  · have htarget := load_target h hi hkind
    refine ⟨fun before hlast => ?_, ?_, fun hj => ?_⟩
    · have hindex := (load_index?_eq_some_iff h _ _).mpr ⟨before, hlast, rfl⟩
      rw [htarget, hindex, Option.getD_some]
    · rw [htarget, load_index?_getD h, hunknown]
    · exact (hknown _).mp (Operation.index?_of_jump hj (load_resolved h hi))
  · have hlost := load_jump_lost h hi hj ((hunknown l).mpr hl)
    rw [hlost, Instruction.error, hlost]
    exact ⟨rfl, rfl⟩
  · exact ⟨load_branches_congr h h', load_accesses_congr h h'⟩

/-- A label that is used before its two definitions, and data labels of its
name and of another one, to which a jump is lost. -/
theorem load_labels_redefined :
    let source := ofString
      "j a\na: syscall\n.data\na: .word 1\nb: .word 2\n.text\nbeq $t0, $t1, b\nj b\na:\nlw $t0, a"
    let lines := source.splitOn '\n'
    ∃ p, load source = .ok p ∧
      (∃ before, Draft.LastTextLabel lines (ofString "a") before ∧
        (Draft.kept .text before).length = 4 ∧
        ∃ i ∈ p.instructions, i.text = ofString "j a" ∧ i.fields.target = 4) ∧
      ¬ Draft.TextLabel lines (ofString "b") ∧
      (∃ i ∈ p.instructions, i.text = ofString "beq $t0, $t1, b" ∧ i.fields.target = -1) ∧
      ∃ i ∈ p.instructions, i.text = ofString "j b" ∧ i.operation.kind = .invalid := by
  intro source lines
  have hlines : (Draft.ofSource source).lines ≠ [] := by decide +kernel
  have h : load source = .ok (Draft.ofSource source).program := by rw [load, if_neg hlines]
  obtain ⟨-, hknown, hindex, hbranches, hlost, -⟩ := load_labels h
  generalize hp : (Draft.ofSource source).program = p at *
  obtain ⟨hjump, hbranch, hdefect, ha, hb⟩ :
      p.instructions[0]? = some ⟨ofString "j a", .jump (ofString "a") 4⟩ ∧
      p.instructions[2]? = some ⟨ofString "beq $t0, $t1, b",
        .branch .equal (some 8) (some 9) (ofString "b") none⟩ ∧
      p.instructions[3]? = some ⟨ofString "j b", .defective (.label (ofString "b"))⟩ ∧
      p.symbols.index? (ofString "a") = some 4 ∧ p.symbols.index? (ofString "b") = none := by
    rw [← hp]
    decide +kernel
  have hundefined : ¬ Draft.TextLabel lines (ofString "b") := fun hl => (hknown _).mpr hl hb
  obtain ⟨before, hlast, hcount⟩ := (hindex _ _).mp ha
  have htarget := (hbranches _ (List.mem_of_getElem? hjump) (by decide)).1 before hlast
  have hnowhere := (hbranches _ (List.mem_of_getElem? hbranch) (by decide)).2.1.mpr hundefined
  have hwritten : (Form.jump (ofString "b")).Written (ofString "j b") := by
    have hline : ofString "j b" = ofString "j" ++ ([' '] ++ ofString "b") := by decide +kernel
    have hlabel : Token.label.Spells (ofString "b") :=
      (Operand.isLabel_iff _).mp (by decide +kernel)
    rw [hline]
    exact .full (by decide +kernel) (by simp) Text.space_blank (.last hlabel)
  have hinvalid := (hlost _ (List.mem_of_getElem? hdefect) _ hwritten hundefined).1
  exact ⟨p, h, ⟨before, hlast, by omega, _, List.mem_of_getElem? hjump, rfl, htarget.trans hcount.symm⟩,
    hundefined, ⟨_, List.mem_of_getElem? hbranch, rfl, hnowhere⟩,
    _, List.mem_of_getElem? hdefect, rfl, hinvalid⟩

end Loaded

end MipsStepper
