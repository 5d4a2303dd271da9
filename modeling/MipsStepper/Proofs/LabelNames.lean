import MipsStepper.Proofs.LabelPrefix
import MipsStepper.Proofs.MemoryOperands

/-!
# Names of labels

Labels are spelled in two places. A line is scanned for the label before its
colon, and the operand of an instruction is checked as a whole. Both take the
same names, so whatever a source defines as a label can be named by every
instruction that takes labels of its kind, also if it looks like a register, a
directive or a mnemonic.
-/

set_option autoImplicit false

namespace MipsStepper
open Text (ofString)

namespace Draft

/-- The scan of a line behind the name that it has found so far. -/
def scanFrom? (name : Text) : Text → Option (Text × Text)
  | [] => none
  | c :: line =>
    if Operand.isLabelChar c then scanFrom? (name ++ [c]) line
    else if c = ':' then some (name, Text.trim line)
    else none

def scan? : Text → Option (Text × Text)
  | [] => none
  | c :: line => if Operand.isLabelStart c then scanFrom? [c] line else none

theorem scanFrom?_eq (name line : Text) : scanFrom? name line =
    match line.dropWhile Operand.isLabelChar with
    | ':' :: rest => some (name ++ line.takeWhile Operand.isLabelChar, Text.trim rest)
    | _ => none := by
  induction line generalizing name with
  | nil => rfl
  | cons c line ih =>
    by_cases hc : Operand.isLabelChar c = true
    · rw [scanFrom?, if_pos hc, ih, List.dropWhile_cons_of_pos hc, List.takeWhile_cons_of_pos hc,
        List.append_assoc]
      rfl
    · rw [scanFrom?, if_neg hc, List.dropWhile_cons_of_neg hc, List.takeWhile_cons_of_neg hc,
        List.append_nil]
      split_ifs with hcolon
      · simp [hcolon]
      · split
        · rename_i heq
          exact absurd (List.cons.inj heq).1 hcolon
        · rfl

/-- The name that is cut off before the check is the one that is scanned. -/
theorem labelled?_eq_scan? (line : Text) : labelled? line = scan? line := by
  cases line with
  | nil => rfl
  | cons c line =>
    by_cases hc : Operand.isLabelStart c = true
    · have hchar := Operand.isLabelChar_of_start hc
      have hname : Operand.isLabel (c :: line.takeWhile Operand.isLabelChar) = true := by
        rw [Operand.isLabel, hc, Bool.true_and]
        exact List.all_takeWhile
      rw [scan?, if_pos hc, scanFrom?_eq, labelled?, List.dropWhile_cons_of_pos hchar,
        List.takeWhile_cons_of_pos hchar]
      simp only [hname, if_true]
      rfl
    · rw [scan?, if_neg hc]
      by_contra hlabel
      obtain ⟨⟨name, rest⟩, hlabel⟩ := Option.ne_none_iff_exists'.mp hlabel
      obtain ⟨tail, hline, -, hname, -⟩ := labelled?_eq_some hlabel
      cases name with
      | nil => cases hname
      | cons d name =>
        obtain ⟨rfl, -⟩ := List.cons.inj hline
        exact hc (Bool.and_eq_true_iff.mp hname).1

theorem labelled?_colon (name rest : Text) :
    (labelled? (name ++ ':' :: rest)).map Prod.fst = some name ↔ Operand.isLabel name = true := by
  constructor
  · intro h
    obtain ⟨⟨label, tail⟩, hlabelled, rfl⟩ := Option.map_eq_some_iff.mp h
    obtain ⟨-, -, -, hname, -⟩ := labelled?_eq_some hlabelled
    exact hname
  · intro hname
    rw [labelled?_append hname]
    rfl

end Draft

section Uses
variable {s : Symbols} {name : Text}

theorem memory?_label (h : Token.label.Spells name) :
    Operand.memory? s name = Operand.absolute? s name := by
  have hlast : name.getLast? ≠ some ')' := by
    intro hlast
    have hlabel := (Operand.isLabel_iff name).mpr h
    have hchar := Operand.isLabelChar_of_mem hlabel (List.mem_of_getLast? hlast)
    exact absurd hchar (by decide)
  rw [Operand.memory?, parenthesized?_eq_none hlast]

theorem decode_spelled {f : Form} {line : Text} (hline : f.line = line)
    (h : ∀ token ∈ f.tokens, token.1.Spells token.2) :
    Instruction.decode s line = ⟨line, f.operation s⟩ := by
  rw [← hline]
  exact decode_form (Form.written_line h)

/-- What a jump and a branch make of a text label, and what an address load and
a word load make of a data label. -/
structure Usable (s : Symbols) (name : Text) : Prop where
  jump : ∀ i, s.index? name = some i →
    Instruction.decode s (ofString "j " ++ name) = ⟨ofString "j " ++ name, .jump name i⟩
  branch : ∀ i, s.index? name = some i →
    Instruction.decode s (ofString "beq $t0, $t1, " ++ name) =
      ⟨ofString "beq $t0, $t1, " ++ name, .branch .equal (some 8) (some 9) name (some i)⟩
  address : ∀ a, s.address? name = some a →
    Instruction.decode s (ofString "la $t0, " ++ name) =
      ⟨ofString "la $t0, " ++ name, .la (some 8) a⟩
  word : ∀ a, s.address? name = some a →
    Instruction.decode s (ofString "lw $t0, " ++ name) =
      ⟨ofString "lw $t0, " ++ name, .lw (some 8) (.absolute a)⟩

theorem usable_of_spells (s : Symbols) (h : Token.label.Spells name) : Usable s name := by
  have ht0 : Token.register.Spells (ofString "$t0") :=
    (Operand.isRegister_iff _).mp (by decide +kernel)
  have ht1 : Token.register.Spells (ofString "$t1") :=
    (Operand.isRegister_iff _).mp (by decide +kernel)
  have ht0' : Register.named? (ofString "$t0") = some 8 := by decide +kernel
  have ht1' : Register.named? (ofString "$t1") = some 9 := by decide +kernel
  have haddress : Token.address.Spells name := ⟨h.ne_nil, h.trim_eq⟩
  constructor
  · intro i hi
    have hline : (Form.jump name).line = ofString "j " ++ name := by
      simp [Form.line, Form.tokens, Form.kind, Kind.name, Text.ofString_eq]
    rw [decode_spelled hline (by simpa [Form.tokens] using h), Form.operation, hi]
    rfl
  · intro i hi
    have hline : (Form.branch .equal (ofString "$t0") (ofString "$t1") name).line =
        ofString "beq $t0, $t1, " ++ name := by
      simp [Form.line, Form.tokens, Form.kind, Kind.name, Text.ofString_eq,
        List.intercalate_cons_cons]
    rw [decode_spelled hline (by simp [Form.tokens, ht0, ht1, h]), Form.operation, ht0', ht1', hi]
  · intro a ha
    have hline : (Form.la (ofString "$t0") name).line = ofString "la $t0, " ++ name := by
      simp [Form.line, Form.tokens, Form.kind, Kind.name, Text.ofString_eq,
        List.intercalate_cons_cons]
    rw [decode_spelled hline (by simp [Form.tokens, ht0, h]), Form.operation, ht0', ha]
    rfl
  · intro a ha
    have hline : (Form.lw (ofString "$t0") name).line = ofString "lw $t0, " ++ name := by
      simp [Form.line, Form.tokens, Form.kind, Kind.name, Text.ofString_eq,
        List.intercalate_cons_cons]
    rw [decode_spelled hline (by simp [Form.tokens, ht0, haddress]), Form.operation, ht0',
      memory?_label h, Operand.absolute?, ha]
    rfl

end Uses

theorem load_label_spells {source : Text} {p : Program} (h : load source = .ok p) {name : Text}
    (hname : p.symbols.index? name ≠ none ∨ p.symbols.address? name ≠ none) :
    Token.label.Spells name := by
  rcases hname with hindex | haddress
  · rw [ne_eq, load_index?_eq_none_iff h, not_not] at hindex
    obtain ⟨-, raw, -, -, -, hdefined⟩ := hindex
    exact (Operand.isLabel_iff name).mp (Draft.isLabel_of_definedLabel? hdefined)
  · exact load_namesSpelled h name haddress

/-- Labels that can be defined can be used. The scan of a line and the check of
an operand agree on every name, and each name in the tables of a loaded program
is read as this label, whatever else it looks like: by a jump and a branch with
its index, by loads of addresses and words with its address. -/
theorem load_labels_usable :
    (∀ line, Draft.labelled? line = Draft.scan? line) ∧
    (∀ name rest, (Draft.labelled? (name ++ ':' :: rest)).map Prod.fst = some name ↔
      Operand.isLabel name = true) ∧
    ∀ source p, load source = .ok p → ∀ name,
      p.symbols.index? name ≠ none ∨ p.symbols.address? name ≠ none → Usable p.symbols name :=
  ⟨Draft.labelled?_eq_scan?, Draft.labelled?_colon,
    fun _ p h _ hname => usable_of_spells p.symbols (load_label_spells h hname)⟩

/-- Labels that look like a register, a directive and a mnemonic. The last one
names a line of code and a string. -/
theorem load_labels_usable_lookalikes :
    let source := ofString
      "$t0: syscall\nli: j $t0\n.data\n.word: .word 7\nli: .asciiz \"a\"\n$t0: .word 1"
    ∃ p, load source = .ok p ∧
      Instruction.decode p.symbols (ofString "j " ++ ofString "$t0") =
        ⟨ofString "j " ++ ofString "$t0", .jump (ofString "$t0") 0⟩ ∧
      Instruction.decode p.symbols (ofString "beq $t0, $t1, " ++ ofString "li") =
        ⟨ofString "beq $t0, $t1, " ++ ofString "li",
          .branch .equal (some 8) (some 9) (ofString "li") (some 1)⟩ ∧
      Instruction.decode p.symbols (ofString "la $t0, " ++ ofString ".word") =
        ⟨ofString "la $t0, " ++ ofString ".word", .la (some 8) 0x10010000⟩ ∧
      Instruction.decode p.symbols (ofString "lw $t0, " ++ ofString "li") =
        ⟨ofString "lw $t0, " ++ ofString "li", .lw (some 8) (.absolute 0x10010004)⟩ := by
  intro source
  have h : load source = .ok (Draft.ofSource source).program :=
    load_of_lines rfl (by decide +kernel)
  have husable := load_labels_usable.2.2 source _ h
  generalize hp : (Draft.ofSource source).program = p at *
  obtain ⟨hregister, hmnemonic, hdirective, hstring⟩ :
      p.symbols.index? (ofString "$t0") = some 0 ∧ p.symbols.index? (ofString "li") = some 1 ∧
      p.symbols.address? (ofString ".word") = some 0x10010000 ∧
      p.symbols.address? (ofString "li") = some 0x10010004 := by
    rw [← hp]
    decide +kernel
  exact ⟨p, h, (husable _ (.inl (by simp [hregister]))).jump 0 hregister,
    (husable _ (.inl (by simp [hmnemonic]))).branch 1 hmnemonic,
    (husable _ (.inr (by simp [hdirective]))).address _ hdirective,
    (husable _ (.inr (by simp [hstring]))).word _ hstring⟩

end MipsStepper
