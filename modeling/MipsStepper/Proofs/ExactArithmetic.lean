import MipsStepper.Proofs.CanonicalText
import MipsStepper.Proofs.StraightLine
import MipsStepper.Proofs.WrittenSource

/-!
# Exact arithmetic modulo 2^32

Lines that load literals, move, add and subtract are evaluated over the
integers, with their literals at full value and without any wrapping. The
machine wraps at every digit of a literal and at every operation. Still its
registers are those of the exact evaluation, wrapped once in the end.
-/

set_option autoImplicit false

namespace MipsStepper
open Text (ofString)

abbrev Values := Register → Int

namespace Values

def read (x : Values) : Option Register → Int
  | none => 0
  | some r => if r = Register.zero then 0 else x r

def write (x : Values) : Option Register → Int → Values
  | none, _ => x
  | some d, n => fun r => if r = d ∧ d ≠ Register.zero then n else x r

end Values

open Register (named?)

/-- What the lines of arithmetic do to the integers. -/
inductive Evaluates (x : Values) : Form → Values → Prop
  | li {d v : Text} {n : Int} (h : Literal.Numeral v n) :
      Evaluates x (.li d v) (x.write (named? d) n)
  | move {d r : Text} : Evaluates x (.move d r) (x.write (named? d) (x.read (named? r)))
  | addi {d r v : Text} {n : Int} (h : Literal.Numeral v n) :
      Evaluates x (.addi d r v) (x.write (named? d) (x.read (named? r) + n))
  | add {d r t : Text} : Evaluates x (.arith .add d r t)
      (x.write (named? d) (x.read (named? r) + x.read (named? t)))
  | sub {d r t : Text} : Evaluates x (.arith .sub d r t)
      (x.write (named? d) (x.read (named? r) - x.read (named? t)))

/-- The lines in their order, each on what the lines before it have left. -/
inductive Evaluation : List Text → Values → Values → Prop
  | nil {x : Values} : Evaluation [] x x
  | cons {line : Text} {lines : List Text} {f : Form} {x y z : Values}
      (hline : f.Written (Text.trim line)) (h : Evaluates x f y) (hrest : Evaluation lines y z) :
      Evaluation (line :: lines) x z

def Form.literal? : Form → Option Text
  | .li _ v => some v
  | .addi _ _ v => some v
  | _ => none

def arithmeticKinds : List Kind := [.li, .move, .addi, .add, .sub]

/-- The lines of arithmetic. Their literals are literals as a whole. -/
structure Arithmetic (line : Text) : Prop where
  kind : (Instruction.decode {} line).operation.kind ∈ arithmeticKinds
  literal : ∀ f : Form, f.Written (Text.trim line) → ∀ v, f.literal? = some v →
    ∃ n, Literal.Numeral v n

section Evaluations
variable {x y y' : Values} {f : Form} {line : Text} {lines : List Text}

theorem Arithmetic.of_form (hkind : (Instruction.decode {} line).operation.kind ∈ arithmeticKinds)
    (hf : f.Written (Text.trim line))
    (hliteral : ∀ v, f.literal? = some v → ∃ n, Literal.Numeral v n) : Arithmetic line :=
  ⟨hkind, fun _ hf' v hv => hliteral v (hf'.unique hf ▸ hv)⟩

theorem Arithmetic.exists_form (h : Arithmetic line) :
    ∃ f : Form, f.Written (Text.trim line) ∧ f.kind ∈ arithmeticKinds := by
  have hwritten : ∃ f : Form, f.Written (Text.trim line) := by
    by_contra hnone
    have hkind := h.kind
    rw [decode_of_not_written (not_exists.mp hnone)] at hkind
    simp [Operation.kind, arithmeticKinds] at hkind
  obtain ⟨f, hf⟩ := hwritten
  have hkind := h.kind
  rw [decode_of_written hf] at hkind
  rcases (f.operation_denotes {} (Text.trim line)).kind_eq with hsame | hinvalid
  · exact ⟨f, hf, hsame ▸ hkind⟩
  · have hinvalid : (f.operation {}).kind = .invalid := hinvalid
    rw [hinvalid] at hkind
    exact absurd hkind (by decide)

theorem Arithmetic.evaluates (h : Arithmetic line) (x : Values) :
    ∃ f : Form, f.Written (Text.trim line) ∧ ∃ y, Evaluates x f y := by
  obtain ⟨f, hf, hkind⟩ := h.exists_form
  have hliteral := h.literal f hf
  refine ⟨f, hf, ?_⟩
  cases f with
  | li d v =>
    obtain ⟨n, hn⟩ := hliteral v rfl
    exact ⟨_, .li hn⟩
  | move d r => exact ⟨_, .move⟩
  | addi d r v =>
    obtain ⟨n, hn⟩ := hliteral v rfl
    exact ⟨_, .addi hn⟩
  | arith op d r t =>
    cases op with
    | add => exact ⟨_, .add⟩
    | sub => exact ⟨_, .sub⟩
  | branch c r t l => cases c <;> simp [Form.kind, arithmeticKinds] at hkind
  | _ => simp [Form.kind, arithmeticKinds] at hkind

theorem Evaluates.unique (h : Evaluates x f y) (h' : Evaluates x f y') : y = y' := by
  cases h with
  | li hv =>
    cases h' with
    | li hv' => rw [hv.unique hv']
  | move => cases h' with | move => rfl
  | addi hv =>
    cases h' with
    | addi hv' => rw [hv.unique hv']
  | add => cases h' with | add => rfl
  | sub => cases h' with | sub => rfl

theorem Evaluation.unique (h : Evaluation lines x y) (h' : Evaluation lines x y') : y = y' := by
  induction h with
  | nil => cases h' with | nil => rfl
  | cons hline h _ ih =>
    cases h' with
    | cons hline' h' hrest' =>
      cases hline.unique hline'
      cases h.unique h'
      exact ih hrest'

theorem exists_evaluation (hlines : ∀ line ∈ lines, Arithmetic line) (x : Values) :
    ∃ y, Evaluation lines x y := by
  induction lines generalizing x with
  | nil => exact ⟨x, .nil⟩
  | cons line lines ih =>
    obtain ⟨f, hf, y, hy⟩ := (hlines line List.mem_cons_self).evaluates x
    obtain ⟨z, hz⟩ := ih (fun l hl => hlines l (List.mem_cons_of_mem _ hl)) y
    exact ⟨z, .cons hf hy hz⟩

end Evaluations

namespace Machine

/-- The registers are the integers, each modulo 2^32. -/
def Agrees (m : Machine) (x : Values) : Prop :=
  ∀ r, m.value r = Word.wrap (x.read r)

section Runs
variable {m m' : Machine} {x y : Values} {p : Program} {k : Nat}

theorem Agrees.write (h : m.Agrees x) (d : Option Register) {n : Int}
    (hregisters : m'.registers = m.registers.write d (Word.wrap n)) : m'.Agrees (x.write d n) := by
  intro r
  cases r with
  | none => rfl
  | some r =>
    have hr := h (some r)
    unfold value at hr ⊢
    rw [hregisters]
    cases d with
    | none => exact hr
    | some d =>
      by_cases hd : d = Register.zero
      · simpa [RegisterFile.write, Values.write, Values.read, hd] using hr
      · rw [RegisterFile.read_write _ _ _ _ hd, hr]
        by_cases hdr : d = r
        · subst hdr
          simp [Values.read, Values.write, hd]
        · simp [Values.read, Values.write, hdr, Ne.symm hdr]

theorem Agrees.execute (hx : m.Agrees x) {f : Form} (h : Evaluates x f y) :
    ∃ d n, y = x.write d n ∧
      ∀ s, m.execute (f.operation s) = (m.assign d (Word.wrap n)).advance := by
  cases h with
  | @li d v n hv =>
    refine ⟨named? d, n, rfl, fun s => ?_⟩
    rw [Form.operation, Literal.read?_numeral hv]
    rfl
  | @move d r =>
    refine ⟨named? d, _, rfl, fun s => ?_⟩
    rw [← hx]
    rfl
  | @addi d r v n hv =>
    refine ⟨named? d, _, rfl, fun s => ?_⟩
    rw [Form.operation, Literal.read?_numeral hv, Word.wrap_add, ← hx]
    rfl
  | @add d r t =>
    refine ⟨named? d, _, rfl, fun s => ?_⟩
    rw [Word.wrap_add, ← hx, ← hx]
    rfl
  | @sub d r t =>
    refine ⟨named? d, _, rfl, fun s => ?_⟩
    rw [Word.wrap_sub, ← hx, ← hx]
    rfl

theorem Before.evaluates (h : m.Before p k []) {f : Form} {line : Text}
    (hline : f.Written (Text.trim line)) (hat : p.instructions[k]? = some (Instruction.decode {} line))
    (hk : k < 10000) (hx : m.Agrees x) (hf : Evaluates x f y) :
    m.step.Before p (k + 1) [] ∧ m.step.Agrees y := by
  obtain ⟨d, n, rfl, hexecute⟩ := Agrees.execute (show m.countStep.Agrees x from hx) hf
  have hoperation : (p.instructions.map Instruction.operation)[k]? = some (f.operation {}) := by
    rw [List.getElem?_map, hat, Option.map_some, decode_of_written hline]
  obtain ⟨hbefore, hregisters⟩ := h.assign_any hoperation hk (hexecute {})
  exact ⟨hbefore, hx.write d hregisters⟩

theorem Before.evaluation {lines : List Text} (hlines : Evaluation lines x y)
    (h : m.Before p k []) (hx : m.Agrees x)
    (hp : p.instructions.drop k = lines.map (Instruction.decode {})) (hk : k + lines.length ≤ 10000) :
    (stepN lines.length m).Before p (k + lines.length) [] ∧ (stepN lines.length m).Agrees y := by
  induction hlines generalizing m k with
  | nil => exact ⟨h, hx⟩
  | @cons line lines f x y z hline hf hrest ih =>
    rw [List.length_cons] at hk ⊢
    have hat : p.instructions[k]? = some (Instruction.decode {} line) := by
      rw [← List.head?_drop, hp]
      rfl
    obtain ⟨hnext, hy⟩ := h.evaluates hline hat (by omega) hx hf
    have hdrop : p.instructions.drop (k + 1) = lines.map (Instruction.decode {}) := by
      rw [← List.tail_drop, hp]
      rfl
    have hlast := ih hnext hy hdrop (by omega)
    rwa [Nat.add_assoc, Nat.add_comm 1] at hlast

theorem run_evaluation {lines : List Text} (hlines : Evaluation lines x y)
    (h : m.Before { instructions := lines.map (Instruction.decode {}) } 0 []) (hx : m.Agrees x)
    (hlength : lines.length ≤ 10000) :
    m.run.status = .halted ∧ m.run.pc = lines.length ∧ m.run.steps = lines.length ∧
      m.run.Agrees y := by
  obtain ⟨hlast, hy⟩ := h.evaluation hlines hx rfl (by omega)
  rw [Nat.zero_add] at hlast
  have hrun := run_stepN lines.length m
  rw [hlast.halts (by simp [Program.size])] at hrun
  rw [← hrun]
  exact ⟨rfl, hlast.pc, hlast.steps, hy⟩

theorem agrees_toInt (m : Machine) : m.Agrees fun r => (m.value (some r)).toInt := by
  intro r
  cases r with
  | none => rfl
  | some r =>
    by_cases hr : r = Register.zero
    · rw [hr]
      rfl
    · rw [Values.read, if_neg hr, Word.wrap_toInt]

end Runs

/-- A run through the lines of arithmetic of a source, which are not labelled,
ends behind the last line. Its registers are those of the one exact evaluation
of the lines, wrapped. -/
theorem run_exact {source : Text} (o : Overrides) (hne : Text.lines source ≠ [])
    (hlength : ((Text.lines source).length : Int) ≤ stepLimit)
    (hhash : ∀ line ∈ Text.lines source, '#' ∉ line)
    (hlines : ∀ line ∈ Text.lines source, Arithmetic line) :
    let lines := Text.lines source
    let m := create source o
    let x : Values := fun r => (m.value (some r)).toInt
    m.run.status = .halted ∧ m.run.pc = lines.length ∧ m.run.steps = lines.length ∧
      ∃ y, (∀ y', Evaluation lines x y' ↔ y' = y) ∧
        ∀ r, r ≠ Register.zero → m.run.value (some r) = Word.wrap (y r) := by
  intro lines m x
  have hload : load source = .ok { instructions := lines.map (Instruction.decode {}) } :=
    load_written hne hhash fun line hline =>
      (hlines line hline).exists_form.imp fun f hf => hf.1
  have hbefore : m.Before { instructions := lines.map (Instruction.decode {}) } 0 [] := by
    have hm : m = start _ source o := create_of_load hload o
    rw [hm]
    exact ⟨rfl, rfl, rfl, rfl, rfl⟩
  obtain ⟨y, hy⟩ := exists_evaluation hlines x
  have hbound : lines.length ≤ 10000 := by
    rw [stepLimit] at hlength
    exact Int.ofNat_le.mp hlength
  obtain ⟨hstatus, hpc, hsteps, hagrees⟩ := run_evaluation hy hbefore (agrees_toInt m) hbound
  refine ⟨hstatus, hpc, hsteps, y, fun y' => ⟨fun hy' => hy'.unique hy, fun h => h ▸ hy⟩, ?_⟩
  intro r hr
  have hvalue := hagrees (some r)
  rwa [Values.read, if_neg hr] at hvalue

section Wide

theorem wide_numeral : Literal.Numeral (ofString "99999999999999999999") 99999999999999999999 := by
  have h := Literal.decimal_numeral 99999999999999999999
  rw [show decimal 99999999999999999999 = ofString "99999999999999999999" by decide +kernel] at h
  exact .inl h

theorem wide_hexadecimal_numeral :
    Literal.Numeral (ofString "-0xfffffffffff") (-0xfffffffffff) := by
  have h := Literal.Hexadecimal.minus (.inl rfl) (Literal.padded_denotes 0 0xfffffffffff)
  rw [show '-' :: '0' :: 'x' :: (Nat.toDigits 16 0xfffffffffff).leftpad 0 '0' =
    ofString "-0xfffffffffff" by decide +kernel] at h
  exact .inr h

theorem wide_load_written : (Form.li (ofString "$t0") (ofString "99999999999999999999")).Written
    (Text.trim (ofString "li $t0, 99999999999999999999")) := by
  rw [show Text.trim (ofString "li $t0, 99999999999999999999") = Form.line
    (.li (ofString "$t0") (ofString "99999999999999999999")) by decide +kernel]
  have hrd := (Operand.isRegister_iff (ofString "$t0")).mp (by decide +kernel)
  have hvalue := (Operand.isImmediate_iff (ofString "99999999999999999999")).mp (by decide +kernel)
  exact Form.written_line (by simp [Form.tokens, hrd, hvalue])

theorem wide_add_written :
    (Form.addi (ofString "$t1") (ofString "$t0") (ofString "-0xfffffffffff")).Written
      (Text.trim (ofString "addi $t1, $t0, -0xfffffffffff")) := by
  rw [show Text.trim (ofString "addi $t1, $t0, -0xfffffffffff") = Form.line
    (.addi (ofString "$t1") (ofString "$t0") (ofString "-0xfffffffffff")) by decide +kernel]
  have hrd := (Operand.isRegister_iff (ofString "$t1")).mp (by decide +kernel)
  have hrs := (Operand.isRegister_iff (ofString "$t0")).mp (by decide +kernel)
  have hvalue := (Operand.isImmediate_iff (ofString "-0xfffffffffff")).mp (by decide +kernel)
  exact Form.written_line (by simp [Form.tokens, hrd, hrs, hvalue])

theorem run_exact_wide :
    let source := ofString "li $t0, 99999999999999999999\naddi $t1, $t0, -0xfffffffffff"
    let lines := Text.lines source
    let m := create source {}
    lines ≠ [] ∧ (lines.length : Int) ≤ stepLimit ∧ (∀ line ∈ lines, '#' ∉ line) ∧
      (∀ line ∈ lines, Arithmetic line) ∧
      m.run.status = .halted ∧ m.run.pc = lines.length ∧ m.run.steps = lines.length ∧
      m.run.value (some 9) = Word.wrap (99999999999999999999 + -0xfffffffffff) := by
  intro source lines m
  have hsplit : lines = [ofString "li $t0, 99999999999999999999",
      ofString "addi $t1, $t0, -0xfffffffffff"] := by decide +kernel
  have hne : lines ≠ [] := by simp [hsplit]
  have hlength : (lines.length : Int) ≤ stepLimit := by
    rw [hsplit]
    decide
  have hhash : ∀ line ∈ lines, '#' ∉ line := by
    rw [hsplit]
    decide +kernel
  have hlines : ∀ line ∈ lines, Arithmetic line := by
    rw [hsplit]
    refine List.forall_mem_cons.mpr ⟨.of_form (by decide +kernel) wide_load_written ?_,
      List.forall_mem_singleton.mpr (.of_form (by decide +kernel) wide_add_written ?_)⟩
    · rintro v ⟨⟩
      exact ⟨_, wide_numeral⟩
    · rintro v ⟨⟩
      exact ⟨_, wide_hexadecimal_numeral⟩
  obtain ⟨hstatus, hpc, hsteps, y, hy, hvalue⟩ := run_exact {} hne hlength hhash hlines
  have hevaluation : ∀ x : Values, Evaluation lines x
      ((x.write (some 8) 99999999999999999999).write (some 9) (99999999999999999999 + -0xfffffffffff)) := by
    intro x
    have ht0 : Register.named? (ofString "$t0") = some 8 := by decide +kernel
    have ht1 : Register.named? (ofString "$t1") = some 9 := by decide +kernel
    have hload := Evaluates.li (x := x) (d := ofString "$t0") wide_numeral
    rw [ht0] at hload
    have hadd := Evaluates.addi (x := x.write (some 8) 99999999999999999999)
      (d := ofString "$t1") (r := ofString "$t0") wide_hexadecimal_numeral
    rw [ht0, ht1] at hadd
    rw [hsplit]
    exact .cons wide_load_written hload (.cons wide_add_written hadd .nil)
  have hnine := hvalue 9 (by decide)
  rw [← (hy _).mp (hevaluation _)] at hnine
  exact ⟨hne, hlength, hhash, hlines, hstatus, hpc, hsteps, hnine⟩

end Wide

end Machine

end MipsStepper
