import MipsStepper.Instruction.Listing
import MipsStepper.Proofs.DataLayout
import MipsStepper.Proofs.Grammar
import MipsStepper.Proofs.Numerals

/-!
# Canonical text decodes back

An instruction is listed in a form of the grammar, with register names,
decimal immediates and hexadecimal addresses for its operands. Reading the
list gives the operation back, since every operand is read as what it was
listed for. Three things would come back as something else: an address that a
data label is named like, an address loaded by `la`, which only takes labels,
and a register that is not in the table.
-/

set_option autoImplicit false

namespace MipsStepper
open Text (ofString)

theorem Kind.lower_name (k : Kind) : Text.lower k.name = k.name := by
  cases k <;> decide +kernel

theorem Listed.intercalate {tokens : List (Token × Text)} (hne : tokens ≠ [])
    (hspells : ∀ token ∈ tokens, token.1.Spells token.2)
    (hfree : ∀ token ∈ tokens.dropLast, token.1 ≠ .address) :
    Listed tokens ((ofString ", ").intercalate (tokens.map Prod.snd)) := by
  induction tokens with
  | nil => exact absurd rfl hne
  | cons token rest ih =>
    obtain ⟨k, x⟩ := token
    have hx : k.Spells x := hspells (k, x) (by simp)
    cases rest with
    | nil => simpa using Listed.last hx
    | cons next rest =>
      have hk : k ≠ .address := hfree (k, x) (by simp)
      have hrest := ih (by simp) (fun t ht => hspells t (List.mem_cons_of_mem _ ht))
        (fun t ht => hfree t (List.mem_cons_of_mem _ ht))
      have hmore := Listed.more hx hk (List.forall_mem_nil _) Text.space_blank hrest
      have hcomma : ofString ", " = [',', ' '] := by decide +kernel
      simpa [hcomma, List.intercalate_cons_cons] using hmore

namespace Form

def line (f : Form) : Text :=
  match f.tokens.map Prod.snd with
  | [] => f.kind.name
  | xs => f.kind.name ++ ' ' :: (ofString ", ").intercalate xs

theorem written_line {f : Form} (h : ∀ token ∈ f.tokens, token.1.Spells token.2) :
    f.Written f.line := by
  have hname := f.kind.lower_name
  by_cases hbare : f.tokens = []
  · have hline : f.line = f.kind.name := by simp [line, hbare]
    rw [hline]
    exact .bare hname hbare
  · have hfree : ∀ token ∈ f.tokens.dropLast, token.1 ≠ .address := by
      cases f <;> simp [tokens]
    have hlisted := Listed.intercalate hbare h hfree
    have hline : f.line = f.kind.name ++
        ([' '] ++ (ofString ", ").intercalate (f.tokens.map Prod.snd)) := by
      unfold line
      split
      · simp_all
      · rfl
    rw [hline]
    exact .full hname (by simp) Text.space_blank hlisted

theorem Written.spells {f : Form} {t : Text} (h : f.Written t) :
    ∀ token ∈ f.tokens, token.1.Spells token.2 := by
  cases h with
  | bare _ hbare => simp [hbare]
  | full _ _ _ hlisted => exact hlisted.spells

end Form

namespace Symbols

def NamesSpelled (s : Symbols) : Prop :=
  ∀ name, s.address? name ≠ none → Token.label.Spells name

end Symbols

theorem load_namesSpelled {source : Text} {p : Program} (h : load source = .ok p) :
    p.symbols.NamesSpelled := by
  intro name hname
  rw [load_eq_ok h] at hname
  have hlabel : Draft.LabelIn .data (source.splitOn '\n') name :=
    Classical.not_not.mp (mt (Draft.address?_ofLines_eq_none_iff _ name).mpr hname)
  obtain ⟨-, raw, -, -, -, hdefined⟩ := hlabel
  exact (Operand.isLabel_iff name).mp (Draft.isLabel_of_definedLabel? hdefined)

section Operands

theorem named?_operandName (r : Option Register) :
    Register.named? (Register.operandName r) = r := by
  cases r with
  | none => decide +kernel
  | some r => exact Register.named?_name r

theorem name_spells (r : Register) : Token.register.Spells r.name ∧ '(' ∉ r.name := by
  have hall : ∀ r : Register, Operand.isRegister r.name = true ∧ '(' ∉ r.name := by decide +kernel
  exact ⟨(Operand.isRegister_iff _).mp (hall r).1, (hall r).2⟩

theorem register_spells {r : Option Register} (h : r.isSome) :
    Token.register.Spells (Register.operandName r) := by
  obtain ⟨d, rfl⟩ := Option.isSome_iff_exists.mp h
  exact (name_spells d).1

theorem decimal_spells (w : Word) : Token.immediate.Spells w.decimal := by
  constructor
  · cases hw : w.toInt with
    | ofNat n => simp [Word.decimal, hw, decimal, Nat.toDigits_ne_nil]
    | negSucc n => simp [Word.decimal, hw, decimal]
  · intro c hc
    refine ⟨?_, Literal.decimal_not_blank w.toInt c hc⟩
    rintro rfl
    have hdigit := (Literal.decimal_numeral w.toInt).solid ',' hc
    exact absurd hdigit (by decide)

theorem parenthesized?_append {front inner : Text} (hinner : '(' ∉ inner) :
    Operand.parenthesized? (front ++ '(' :: inner ++ [')']) =
      if front = [] then none else some (front, inner) := by
  have hreverse : (front ++ '(' :: inner ++ [')']).reverse =
      ')' :: (inner.reverse ++ '(' :: front.reverse) := by simp
  have hlast : '(' ∉ inner.reverse := mt List.mem_reverse.mp hinner
  rw [Operand.parenthesized?, hreverse]
  simp only [Text.dropWhile_cut hlast, Text.takeWhile_cut hlast, List.reverse_reverse]
  cases h : front.reverse with
  | nil => simp_all
  | cons c t =>
    have hback : (c :: t).reverse = front := by rw [← h, List.reverse_reverse]
    have hfront : front ≠ [] := by rintro rfl; cases h
    rw [if_neg hfront, ← hback]
    rfl

theorem parenthesized?_eq_none {t : Text} (h : t.getLast? ≠ some ')') :
    Operand.parenthesized? t = none := by
  unfold Operand.parenthesized?
  split
  · rename_i r hreverse
    rw [List.getLast?_eq_head?_reverse, hreverse] at h
    exact absurd rfl h
  · rfl

theorem memory?_listing {s : Symbols} (hs : s.NamesSpelled) (x : MemOperand) :
    Operand.memory? s x.listing = some x := by
  cases x with
  | based n r =>
    have hinner := (Operand.isRegister_iff r.name).mpr (name_spells r).1
    have hcut := @parenthesized?_append n.decimal r.name (name_spells r).2
    rw [if_neg (decimal_spells n).1] at hcut
    rw [MemOperand.listing, Operand.memory?, hcut]
    simp [hinner, Operand.based?, Literal.read?_decimal, Register.named?_name]
  | absolute a =>
    obtain ⟨c, hlast, hdigit⟩ := Literal.hexadecimal_last 8 a.bits
    have hcut : Operand.parenthesized? a.hex = none := by
      apply parenthesized?_eq_none
      rw [Word.hex, hlast]
      rintro ⟨rfl⟩
      exact absurd hdigit (by decide)
    have hname : s.address? a.hex = none := by
      by_contra hfound
      have hlabel := (Operand.isLabel_iff _).mpr (hs _ hfound)
      exact absurd hlabel (by simp [Word.hex, hexadecimal, Operand.isLabel, Operand.isLabelStart])
    have hread : Literal.read? a.hex = some a := Literal.read?_hexadecimal 8 a
    simp [MemOperand.listing, Operand.memory?, hcut, Operand.absolute?, hname, hread]

theorem address_spells (x : MemOperand) : Token.address.Spells x.listing := by
  cases x with
  | based n r =>
    have hname : ∀ d : Register, d.name.all (fun c => !Text.isBlank c) = true := by decide +kernel
    constructor
    · simp [MemOperand.listing]
    · apply Text.trim_of_not_blank
      intro c hc
      simp only [MemOperand.listing, List.mem_append, List.mem_cons, List.not_mem_nil, or_false]
        at hc
      rcases hc with (hn | rfl | hr) | rfl
      · exact Literal.decimal_not_blank n.toInt c hn
      · decide
      · simpa using List.all_eq_true.mp (hname r) c hr
      · decide
  | absolute a =>
    exact ⟨by simp [MemOperand.listing, Word.hex, hexadecimal],
      Text.trim_of_not_blank (Literal.hexadecimal_not_blank 8 a.bits)⟩

end Operands

namespace Operation
variable {s : Symbols} {o : Operation}

/-- The registers that an operation of its kind names. A memory operand has
none but of the table. -/
def registerOperands : Operation → List (Option Register)
  | .li rd _ => [rd]
  | .la rd _ => [rd]
  | .move rd rs => [rd, rs]
  | .addi rd rs _ => [rd, rs]
  | .arith _ rd rs rt => [rd, rs, rt]
  | .lw rd _ => [rd]
  | .sw rs _ => [rs]
  | .branch _ rs rt _ _ => [rs, rt]
  | _ => []

def Registered (o : Operation) : Prop := ∀ r ∈ o.registerOperands, r.isSome

def LabelSpelled : Operation → Prop
  | .branch _ _ _ l _ => Token.label.Spells l
  | .jump l _ => Token.label.Spells l
  | _ => True

/-- The form in which an operation is listed, if decoding reads it as this
operation. -/
def form? : Operation → Option Form
  | .li rd v => some (.li (Register.operandName rd) v.decimal)
  | .move rd rs => some (.move (Register.operandName rd) (Register.operandName rs))
  | .addi rd rs v => some (.addi (Register.operandName rd) (Register.operandName rs) v.decimal)
  | .arith op rd rs rt =>
    some (.arith op (Register.operandName rd) (Register.operandName rs) (Register.operandName rt))
  | .lw rd x => some (.lw (Register.operandName rd) x.listing)
  | .sw rs x => some (.sw (Register.operandName rs) x.listing)
  | .branch c rs rt l _ =>
    some (.branch c (Register.operandName rs) (Register.operandName rt) l)
  | .jump l _ => some (.jump l)
  | .syscall => some .syscall
  | .la _ _ => none
  | .defective _ => none

theorem listing_eq_line {f : Form} (h : o.form? = some f) : o.listing = f.line := by
  cases o with
  | arith op rd rs rt => cases op <;> cases h <;> rfl
  | branch c rs rt l target => cases c <;> cases h <;> rfl
  | _ => cases h <;> rfl

theorem operation_form {f : Form} (h : o.form? = some f) (hs : s.NamesSpelled)
    (hresolved : o.ResolvedBy s) : f.operation s = o := by
  cases o with
  | li rd v =>
    cases h
    simp [Form.operation, Literal.read?_decimal, ofResolved, named?_operandName]
  | move rd rs =>
    cases h
    simp [Form.operation, named?_operandName]
  | addi rd rs v =>
    cases h
    simp [Form.operation, Literal.read?_decimal, ofResolved, named?_operandName]
  | arith op rd rs rt =>
    cases h
    simp [Form.operation, named?_operandName]
  | lw rd x =>
    cases h
    simp [Form.operation, memory?_listing hs, ofResolved, named?_operandName]
  | sw rs x =>
    cases h
    simp [Form.operation, memory?_listing hs, ofResolved, named?_operandName]
  | branch c rs rt l target =>
    cases h
    simp only [ResolvedBy] at hresolved
    simp [Form.operation, named?_operandName, hresolved]
  | jump l target =>
    cases h
    simp only [ResolvedBy] at hresolved
    simp [Form.operation, hresolved, ofResolved]
  | syscall =>
    cases h
    rfl
  | la rd a => cases h
  | defective d => cases h

theorem spells_form {f : Form} (h : o.form? = some f) (hregistered : o.Registered)
    (hlabel : o.LabelSpelled) : ∀ token ∈ f.tokens, token.1.Spells token.2 := by
  cases o with
  | la rd a => cases h
  | defective d => cases h
  | _ =>
    cases h
    simp_all [Form.tokens, Registered, registerOperands, register_spells, decimal_spells,
      address_spells, LabelSpelled]

theorem ofResolved_labelSpelled {α : Type} {operand : Option α} {build : α → Operation}
    {defect : Defect} (h : ∀ a, (build a).LabelSpelled) :
    (ofResolved operand build defect).LabelSpelled := by
  cases operand with
  | none => trivial
  | some a => exact h a

theorem labelSpelled_operation {f : Form} (h : ∀ token ∈ f.tokens, token.1.Spells token.2) :
    (f.operation s).LabelSpelled := by
  cases f with
  | branch c r t l => exact h (.label, l) (by simp [Form.tokens])
  | jump l => exact ofResolved_labelSpelled fun _ => h (.label, l) (by simp [Form.tokens])
  | move d r => trivial
  | arith op d r t => trivial
  | syscall => trivial
  | _ => exact ofResolved_labelSpelled fun _ => trivial

end Operation

namespace Instruction
variable {s : Symbols}

theorem decode_labelSpelled (s : Symbols) (line : Text) :
    (decode s line).operation.LabelSpelled := by
  by_cases h : ∃ f : Form, f.Written (Text.trim line)
  · obtain ⟨f, hf⟩ := h
    rw [decode_of_written hf]
    exact Operation.labelSpelled_operation hf.spells
  · rw [decode_of_not_written (not_exists.mp h)]
    trivial

theorem decode_line {f : Form} (h : ∀ token ∈ f.tokens, token.1.Spells token.2) :
    (decode s f.line).operation = f.operation s := by
  rw [decode_form (Form.written_line h)]

theorem listing_eq_line {i : Instruction} {f : Form} (h : i.operation.form? = some f) :
    i.listing = f.line := by
  have hline := Operation.listing_eq_line h
  cases ho : i.operation with
  | defective d => simp [ho, Operation.form?] at h
  | _ => simpa [listing, ho] using hline

theorem listing_congr {i j : Instruction} {f : Form} (h : i.operation.form? = some f)
    (hij : j.operation = i.operation) : j.listing = i.listing := by
  rw [listing_eq_line h, listing_eq_line (hij ▸ h)]

theorem decode_listing_defective {line : Text} {d : Defect}
    (h : (decode s line).operation = .defective d) :
    decode s (decode s line).listing = decode s line := by
  have hlisting : (decode s line).listing = Text.trim line := by
    rw [listing, h]
    rfl
  rw [hlisting, decode_trim]

theorem decode_listing_form (hs : s.NamesSpelled) {line : Text} {f : Form}
    (h : (decode s line).operation.form? = some f) (hregistered : (decode s line).operation.Registered) :
    (decode s (decode s line).listing).operation = (decode s line).operation := by
  have hspells := Operation.spells_form h hregistered (decode_labelSpelled s line)
  rw [listing_eq_line h, decode_line hspells]
  exact Operation.operation_form h hs (decode_resolved s line)

end Instruction

/-- The listing of an instruction decodes to it again, but for its text, and
the listing of that is the same. This asks that the registers are in the table
and that no data label is named like an address, which no loaded program has,
and it is not so for `la`, whose address is not listed as a label. The listing
of a defective line is its text, and it comes back with it. -/
theorem decode_listing :
    (∀ (s : Symbols) (line : Text), s.NamesSpelled →
      let i := Instruction.decode s line
      let again := Instruction.decode s i.listing
      (i.operation.kind ≠ .la → i.operation.Registered →
        again = { i with text := again.text } ∧ again.listing = i.listing) ∧
      (i.operation.kind = .invalid ∨ i.operation.kind = .unsupported → again = i)) ∧
    ∀ source p, load source = .ok p → p.symbols.NamesSpelled := by
  refine ⟨fun s line hs => ?_, fun source p => load_namesSpelled⟩
  intro i again
  have hdefective : ∀ d, i.operation = .defective d → again = i := fun d =>
    Instruction.decode_listing_defective
  constructor
  · intro hla hregistered
    cases hform : i.operation.form? with
    | some f =>
      have hoperation : again.operation = i.operation :=
        Instruction.decode_listing_form hs hform hregistered
      exact ⟨by rw [← hoperation], Instruction.listing_congr hform hoperation⟩
    | none =>
      have hd : ∃ d, i.operation = .defective d := by
        cases ho : i.operation with
        | defective d => exact ⟨d, rfl⟩
        | la rd a => exact absurd (by rw [ho]; rfl) hla
        | _ => simp [ho, Operation.form?] at hform
      obtain ⟨d, hd⟩ := hd
      rw [hdefective d hd]
      exact ⟨rfl, rfl⟩
  · intro hkind
    obtain ⟨d, hd⟩ := Operation.exists_defect hkind
    exact hdefective d hd

/-- A word at a label below address zero, which is listed by its bit pattern. -/
theorem decode_listing_negative_address :
    let s := ({} : Symbols).defineDataLabel (ofString "x") (-4)
    let i := Instruction.decode s (ofString "LW $t0 , x")
    let again := Instruction.decode s i.listing
    s.NamesSpelled ∧ i.operation.kind ≠ .la ∧ i.operation.Registered ∧
      i.listing = ofString "lw $t0, 0xfffffffc" ∧
      again = { i with text := again.text } ∧ again.listing = i.listing := by
  intro s i again
  have hs : s.NamesSpelled := by
    intro name hname
    rw [Symbols.address?_defineDataLabel] at hname
    have hx : ofString "x" = name := by
      by_contra hne
      simp [hne, Symbols.address?] at hname
    rw [← hx, ← Operand.isLabel_iff]
    decide +kernel
  have hkind : i.operation.kind ≠ .la := by decide +kernel
  have hregistered : i.operation.Registered := by
    have hall : i.operation.registerOperands.all Option.isSome = true := by decide +kernel
    exact List.all_eq_true.mp hall
  have hlisting : i.listing = ofString "lw $t0, 0xfffffffc" := by decide +kernel
  exact ⟨hs, hkind, hregistered, hlisting, ((decode_listing.1 s _ hs).1 hkind hregistered)⟩

end MipsStepper
