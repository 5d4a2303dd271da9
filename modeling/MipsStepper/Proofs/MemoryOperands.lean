import MipsStepper.Proofs.CanonicalText

/-!
# Memory operands in parentheses

A memory operand that ends in parentheses is cut at the last opening one. What
stands between them commits to a base register if it is spelled as a register:
then the offset must be a number and the register one of the table, or the
operand is refused. Parentheses round anything else are no mark of a base. The
operand is then an address as far as its decimal front goes, and it is refused
if it has none.
-/

set_option autoImplicit false

namespace MipsStepper
open Text (ofString)

namespace Operand

/-- A text that ends in parentheses, with what stands before the last opening
one and what stands between. -/
structure Parenthesized (x front inner : Text) : Prop where
  eq : x = front ++ '(' :: inner ++ [')']
  last : '(' ∉ inner

inductive Accesses (x : Text) : MemOperand → Prop
  | based {offset : Text} {n : Word} {r : Register} (h : Parenthesized x offset r.name)
      (hn : Literal.read? offset = some n) : Accesses x (.based n r)
  | absolute {front inner : Text} {v : Int} (h : Parenthesized x front inner)
      (hinner : ¬ Token.register.Spells inner) (hv : Literal.DecimalFront x v) :
      Accesses x (.absolute (Word.wrap v))

variable {s : Symbols} {x front inner : Text}

theorem exists_parenthesized (hopen : '(' ∈ x) (hclose : x.getLast? = some ')') :
    ∃ front inner, Parenthesized x front inner := by
  obtain ⟨y, rfl⟩ := List.getLast?_eq_some_iff.mp hclose
  have hy : '(' ∈ y.reverse := by simpa using hopen
  obtain ⟨inner, front, hcut, hinner⟩ := List.eq_append_cons_of_mem hy
  refine ⟨front.reverse, inner.reverse, ?_, by simpa using hinner⟩
  rw [← List.reverse_reverse y, hcut]
  simp

theorem based?_eq_some_iff {offset base : Text} {m : MemOperand} : based? offset base = some m ↔
    ∃ n r, Literal.read? offset = some n ∧ Register.named? base = some r ∧ m = .based n r := by
  cases hn : Literal.read? offset <;> cases hr : Register.named? base <;>
    simp [based?, hn, hr, eq_comm]

namespace Parenthesized

theorem not_label (h : Parenthesized x front inner) : ¬ Token.label.Spells x := by
  intro hlabel
  have hopen : '(' ∈ x := by simp [h.eq]
  exact absurd (isLabelChar_of_mem ((isLabel_iff x).mpr hlabel) hopen) (by decide)

theorem not_hexadecimal (h : Parenthesized x front inner) (v : Int) : ¬ Literal.Hexadecimal x v :=
  fun hv => absurd (hv.solid '(' (by simp [h.eq])) (by decide)

theorem front_ne_nil (h : Parenthesized x front inner) {v : Int} (hv : Literal.DecimalFront x v) :
    front ≠ [] := by
  rintro rfl
  obtain ⟨number, rest, hx, hnumber, -⟩ := hv
  obtain ⟨c, number, rfl⟩ := List.exists_cons_of_ne_nil hnumber.ne_nil
  have hc : '(' = c := (List.cons.inj (h.eq.symm.trans hx)).1
  exact absurd (hnumber.solid c List.mem_cons_self) (by rw [← hc]; decide)

/-- No label of the program is spelled so, and no hexadecimal literal. -/
theorem absolute?_eq_some_iff (h : Parenthesized x front inner) (hs : s.NamesSpelled)
    (htrim : Text.trim x = x) {m : MemOperand} :
    absolute? s x = some m ↔ ∃ v, Literal.DecimalFront x v ∧ m = .absolute (Word.wrap v) := by
  have hname : s.address? x = none := Classical.not_not.mp (mt (hs x) h.not_label)
  have hvalue : ∀ v, (Literal.ofText? x).map Literal.value = some v ↔ Literal.DecimalFront x v := by
    intro v
    rw [Literal.value_ofText?_eq_some_iff, htrim]
    exact ⟨fun hv => hv.elim (fun hhex => absurd hhex (h.not_hexadecimal v)) And.right,
      fun hv => .inr ⟨h.not_hexadecimal, hv⟩⟩
  rw [absolute?, hname, Option.none_or, Literal.read?_eq, Option.map_map, Option.map_eq_some_iff]
  simp only [hvalue, Function.comp_apply, eq_comm]

theorem inner_eq (h : Parenthesized x front inner) :
    inner = (x.dropLast.reverse.takeWhile (· ≠ '(')).reverse := by
  have hback : x.dropLast.reverse = inner.reverse ++ '(' :: front.reverse := by
    rw [h.eq, List.dropLast_concat]
    simp
  rw [hback, Text.takeWhile_cut (mt List.mem_reverse.mp h.last), List.reverse_reverse]

theorem parenthesized?_eq (h : Parenthesized x front inner) :
    parenthesized? x = if front = [] then none else some (front, inner) := by
  rw [h.eq, parenthesized?_append h.last]

/-- A register token in the parentheses commits to the based form, also where
there is no offset. -/
theorem memory?_register (h : Parenthesized x front inner) (hs : s.NamesSpelled)
    (htrim : Text.trim x = x) (hinner : Token.register.Spells inner) :
    memory? s x = based? front inner := by
  rw [memory?, h.parenthesized?_eq]
  by_cases hfront : front = []
  · have habsolute : absolute? s x = none := by
      rw [Option.eq_none_iff_forall_ne_some]
      intro m hm
      obtain ⟨v, hv, -⟩ := (h.absolute?_eq_some_iff hs htrim).mp hm
      exact h.front_ne_nil hv hfront
    have hoffset : Literal.read? [] = none := by decide
    simp [hfront, habsolute, based?, hoffset]
  · simp [hfront, (isRegister_iff inner).mpr hinner]

theorem memory?_other (h : Parenthesized x front inner) (hinner : ¬ Token.register.Spells inner) :
    memory? s x = absolute? s x := by
  rw [memory?, h.parenthesized?_eq]
  by_cases hfront : front = []
  · simp [hfront]
  · simp [hfront, mt (isRegister_iff inner).mp hinner]

theorem memory?_eq_some_iff (h : Parenthesized x front inner) (hs : s.NamesSpelled)
    (htrim : Text.trim x = x) {m : MemOperand} : memory? s x = some m ↔ Accesses x m := by
  constructor
  · intro hm
    by_cases hinner : Token.register.Spells inner
    · rw [h.memory?_register hs htrim hinner] at hm
      obtain ⟨n, r, hn, hr, rfl⟩ := based?_eq_some_iff.mp hm
      exact .based (Register.name_of_named? hr ▸ h) hn
    · rw [h.memory?_other hinner] at hm
      obtain ⟨v, hv, rfl⟩ := (h.absolute?_eq_some_iff hs htrim).mp hm
      exact .absolute h hinner hv
  · intro hm
    cases hm with
    | @based offset n r hcut hn =>
      rw [hcut.memory?_register hs htrim (name_spells r).1]
      exact based?_eq_some_iff.mpr ⟨n, r, hn, Register.named?_name r, rfl⟩
    | absolute hcut hinner hv =>
      rw [hcut.memory?_other hinner]
      exact (hcut.absolute?_eq_some_iff hs htrim).mpr ⟨_, hv, rfl⟩

end Parenthesized

end Operand

/-- The lines of a load or a store with their address operand, and the fields
they have for what it gives access to. -/
inductive Accessing (line x : Text) : (MemOperand → Fields) → Prop
  | load {rd : Text} (h : (Form.lw rd x).Written (Text.trim line)) : Accessing line x fun m =>
      { kind := .lw, rd := Register.named? rd, memOperand? := some m }
  | store {rs : Text} (h : (Form.sw rs x).Written (Text.trim line)) : Accessing line x fun m =>
      { kind := .sw, rs := Register.named? rs, memOperand? := some m }

section Accessing
variable {line x : Text} {fields : MemOperand → Fields}

theorem Accessing.trim_eq (h : Accessing line x fields) : Text.trim x = x := by
  cases h with
  | @load rd h => exact (h.spells (.address, x) (by simp [Form.tokens])).2
  | @store rs h => exact (h.spells (.address, x) (by simp [Form.tokens])).2

theorem Accessing.decode_eq (h : Accessing line x fields) (s : Symbols) :
    (Instruction.decode s line).fields = (Operand.memory? s x).elim
      { kind := .invalid, error := ofString "Invalid memory operand: " ++ x } fields := by
  cases h with
  | load h =>
    rw [decode_of_written h, Form.operation]
    cases Operand.memory? s x <;> rfl
  | store h =>
    rw [decode_of_written h, Form.operation]
    cases Operand.memory? s x <;> rfl

theorem Accessing.memOperand?_eq (h : Accessing line x fields) (s : Symbols) :
    (Instruction.decode s line).fields.memOperand? = Operand.memory? s x := by
  rw [h.decode_eq s]
  cases Operand.memory? s x with
  | none => rfl
  | some m => cases h <;> rfl

/-- Loads and stores whose operand ends in parentheses. The operand has a base
register only if it is a number before a register of the table, and an operand
that gives access to nothing is reported. Round a register token the
parentheses never belong to an address without a base. -/
theorem decode_parenthesized {source : Text} {p : Program} (hload : load source = .ok p)
    (hline : Accessing line x fields) (hopen : '(' ∈ x) (hclose : x.getLast? = some ')') :
    let i := Instruction.decode p.symbols line
    (∀ m, Operand.Accesses x m → i.fields = fields m) ∧
    ((∀ m, ¬ Operand.Accesses x m) →
      i.fields = { kind := .invalid, error := ofString "Invalid memory operand: " ++ x }) ∧
    ∀ front inner, Operand.Parenthesized x front inner → Token.register.Spells inner →
      ∀ a, i.fields.memOperand? ≠ some (.absolute a) := by
  intro i
  have hs := load_namesSpelled hload
  have hi := hline.decode_eq p.symbols
  obtain ⟨front, inner, hcut⟩ := Operand.exists_parenthesized hopen hclose
  have haccess : ∀ m, Operand.memory? p.symbols x = some m ↔ Operand.Accesses x m :=
    fun m => hcut.memory?_eq_some_iff hs hline.trim_eq
  refine ⟨fun m hm => ?_, fun hnone => ?_, fun front inner hcut hinner a ha => ?_⟩
  · rwa [(haccess m).mpr hm] at hi
  · rwa [Option.eq_none_iff_forall_ne_some.mpr fun m hm => hnone m ((haccess m).mp hm)] at hi
  · rw [hline.memOperand?_eq, hcut.memory?_register hs hline.trim_eq hinner] at ha
    obtain ⟨n, r, -, -, hbased⟩ := Operand.based?_eq_some_iff.mp ha
    cases hbased

end Accessing

section Blanks

theorem accessing_blanks : Accessing (ofString "lw $t0, 4( $sp )") (ofString "4( $sp )") fun m =>
    { kind := .lw, rd := some 8, memOperand? := some m } := by
  have hregister := (Operand.isRegister_iff (ofString "$t0")).mp (by decide +kernel)
  have haddress : Token.address.Spells (ofString "4( $sp )") :=
    ⟨by decide +kernel, by decide +kernel⟩
  have hwritten : (Form.lw (ofString "$t0") (ofString "4( $sp )")).Written
      (Form.lw (ofString "$t0") (ofString "4( $sp )")).line :=
    Form.written_line (by simp [Form.tokens, hregister, haddress])
  have hline : (Form.lw (ofString "$t0") (ofString "4( $sp )")).line =
      Text.trim (ofString "lw $t0, 4( $sp )") := by decide +kernel
  have hnamed : Register.named? (ofString "$t0") = some 8 := by decide +kernel
  rw [hline] at hwritten
  exact hnamed ▸ Accessing.load hwritten

theorem parenthesized_blanks :
    Operand.Parenthesized (ofString "4( $sp )") ['4'] [' ', '$', 's', 'p', ' '] :=
  ⟨by decide +kernel, by decide⟩

theorem decode_parenthesized_blanks :
    let source := ofString "lw $t0, 4( $sp )"
    let x := ofString "4( $sp )"
    let fields := fun m => { kind := .lw, rd := some 8, memOperand? := some m }
    ∃ p, load source = .ok p ∧ Accessing source x fields ∧ '(' ∈ x ∧ x.getLast? = some ')' ∧
      Operand.Accesses x (.absolute 4) ∧
      (Instruction.decode p.symbols source).fields = fields (.absolute 4) := by
  intro source x fields
  have hlines : (Draft.ofSource source).lines ≠ [] := by decide +kernel
  have hload : load source = .ok (Draft.ofSource source).program := load_of_lines rfl hlines
  have hopen : '(' ∈ x := by decide +kernel
  have hclose : x.getLast? = some ')' := by decide +kernel
  have hinner : ¬ Token.register.Spells [' ', '$', 's', 'p', ' '] := by
    rw [← Operand.isRegister_iff]
    decide
  have hfour : Literal.DecimalFront x 4 := by
    rw [← Literal.value_decimal?_eq_some_iff]
    decide +kernel
  have haccess : Operand.Accesses x (.absolute 4) := .absolute parenthesized_blanks hinner hfour
  exact ⟨_, hload, accessing_blanks, hopen, hclose, haccess,
    (decode_parenthesized hload accessing_blanks hopen hclose).1 _ haccess⟩

/-- No number before a parenthesized register of the table, and still no
invalid line. -/
theorem parenthesized_blanks_accepted :
    let source := ofString "lw $t0, 4( $sp )"
    let x := ofString "4( $sp )"
    ∃ p, load source = .ok p ∧
      Accessing source x (fun m => { kind := .lw, rd := some 8, memOperand? := some m }) ∧
      '(' ∈ x ∧ x.getLast? = some ')' ∧
      (∀ (offset : Text) (r : Register), x ≠ offset ++ '(' :: r.name ++ [')']) ∧
      (Instruction.decode p.symbols source).fields =
        { kind := .lw, rd := some 8, memOperand? := some (.absolute 4) } := by
  intro source x
  have hlines : (Draft.ofSource source).lines ≠ [] := by decide +kernel
  have hload : load source = .ok (Draft.ofSource source).program := load_of_lines rfl hlines
  have hbase : ∀ (offset : Text) (r : Register), x ≠ offset ++ '(' :: r.name ++ [')'] := by
    intro offset r hx
    have hcut : Operand.Parenthesized x offset r.name := ⟨hx, (name_spells r).2⟩
    have hregister := (name_spells r).1
    rw [hcut.inner_eq, ← parenthesized_blanks.inner_eq, ← Operand.isRegister_iff] at hregister
    exact absurd hregister (by decide)
  exact ⟨_, hload, accessing_blanks, by decide +kernel, by decide +kernel, hbase,
    by decide +kernel⟩

end Blanks

end MipsStepper
