import MipsStepper.Proofs.InstructionPlace
import MipsStepper.Proofs.MemoryOperands
import MipsStepper.Proofs.UnknownRegisters

/-!
# Register names outside the table

A register operand may be spelled well and name no register. Such a name can
be replaced by `$zero` where it stands, in any line of the text segment, and
all runs of the source stay what they were. The base of an address is no such
operand: a load or a store with a base outside the table is invalid.
-/

set_option autoImplicit false

namespace MipsStepper
open Text (ofString)

/-- What can take the place of a token: the token itself, and `$zero` for a
register name outside the table. -/
inductive Token.Grounds : Token × Text → Token × Text → Prop
  | same {token : Token × Text} : Grounds token token
  | zero {x : Text} (h : Register.named? x = none) :
      Grounds (.register, x) (.register, ofString "$zero")

/-- Two lists of operands with the same commas and blanks, of which the second
has `$zero` in some places. -/
inductive Listed.Grounds : List (Token × Text) → List (Token × Text) → Text → Text → Prop
  | last {a b : Token × Text} (ha : a.1.Spells a.2) (h : Token.Grounds a b) :
      Grounds [a] [b] a.2 b.2
  | more {a b : Token × Text} {before after t t' : Text} {rest rest' : List (Token × Text)}
      (ha : a.1.Spells a.2) (hk : a.1 ≠ .address) (h : Token.Grounds a b)
      (hbefore : ∀ c ∈ before, Text.isBlank c = true) (hafter : ∀ c ∈ after, Text.isBlank c = true)
      (hrest : Grounds rest rest' t t') :
      Grounds (a :: rest) (b :: rest') (a.2 ++ before ++ ',' :: (after ++ t))
        (b.2 ++ before ++ ',' :: (after ++ t'))

section Operands
variable {a b : Token × Text} {tokens tokens' : List (Token × Text)} {t t' : Text}

namespace Token.Grounds

theorem class_eq (h : Grounds a b) : b.1 = a.1 := by
  cases h <;> rfl

theorem zero_spells : Token.register.Spells (ofString "$zero") :=
  (Operand.isRegister_iff _).mp (by decide +kernel)

theorem spells (h : Grounds a b) (ha : a.1.Spells a.2) : b.1.Spells b.2 := by
  cases h with
  | same => exact ha
  | zero _ => exact zero_spells

theorem not_mem (h : Grounds a b) {c : Char} (hc : c ∉ ofString "$zero") (ha : c ∉ a.2) :
    c ∉ b.2 := by
  cases h with
  | same => exact ha
  | zero _ => exact hc

theorem grounded_eq {x x' : Text} (h : Grounds (.register, x) (.register, x')) :
    Register.grounded (Register.named? x') = Register.grounded (Register.named? x) := by
  cases h with
  | same => rfl
  | zero hx =>
    have hzero : Register.named? (ofString "$zero") = some Register.zero :=
      Register.named?_name Register.zero
    rw [hx, hzero]
    rfl

end Token.Grounds

namespace Listed.Grounds

theorem left (h : Grounds tokens tokens' t t') : Listed tokens t := by
  induction h with
  | last ha _ => exact .last ha
  | more ha hk _ hbefore hafter _ ih => exact .more ha hk hbefore hafter ih

theorem right (h : Grounds tokens tokens' t t') : Listed tokens' t' := by
  induction h with
  | last ha h => exact .last (h.spells ha)
  | more ha hk h hbefore hafter _ ih =>
    exact .more (h.spells ha) (h.class_eq ▸ hk) hbefore hafter ih

theorem not_mem (h : Grounds tokens tokens' t t') {c : Char} (hc : c ∉ ofString "$zero")
    (ht : c ∉ t) : c ∉ t' := by
  induction h with
  | last _ h => exact h.not_mem hc ht
  | @more a b before after t t' rest rest' _ _ h _ _ _ ih =>
    simp only [List.mem_append, List.mem_cons, not_or] at ht ⊢
    obtain ⟨⟨ha, hbefore⟩, hcomma, hafter, hrest⟩ := ht
    exact ⟨⟨h.not_mem hc ha, hbefore⟩, hcomma, hafter, ih hrest⟩

end Listed.Grounds

theorem Listed.exists_grounds (h : Listed tokens t)
    (htokens : List.Forall₂ Token.Grounds tokens tokens') :
    ∃ t', Listed.Grounds tokens tokens' t t' := by
  induction h generalizing tokens' with
  | last h =>
    obtain _ | ⟨hfirst, ⟨⟩⟩ := htokens
    exact ⟨_, .last h hfirst⟩
  | more h hk hbefore hafter _ ih =>
    obtain _ | ⟨hfirst, hrest⟩ := htokens
    obtain ⟨t', ht'⟩ := ih hrest
    exact ⟨_, .more h hk hfirst hbefore hafter ht'⟩

end Operands

namespace Form

/-- Two forms of which the second has `$zero` in the place of some of the
register operands of the first. -/
inductive Grounds : Form → Form → Prop
  | li {d d' v : Text} (hd : Token.Grounds (.register, d) (.register, d')) :
      Grounds (.li d v) (.li d' v)
  | la {d d' l : Text} (hd : Token.Grounds (.register, d) (.register, d')) :
      Grounds (.la d l) (.la d' l)
  | move {d d' r r' : Text} (hd : Token.Grounds (.register, d) (.register, d'))
      (hr : Token.Grounds (.register, r) (.register, r')) : Grounds (.move d r) (.move d' r')
  | addi {d d' r r' v : Text} (hd : Token.Grounds (.register, d) (.register, d'))
      (hr : Token.Grounds (.register, r) (.register, r')) : Grounds (.addi d r v) (.addi d' r' v)
  | arith {op : ArithOp} {d d' r r' t t' : Text}
      (hd : Token.Grounds (.register, d) (.register, d'))
      (hr : Token.Grounds (.register, r) (.register, r'))
      (ht : Token.Grounds (.register, t) (.register, t')) :
      Grounds (.arith op d r t) (.arith op d' r' t')
  | lw {d d' x : Text} (hd : Token.Grounds (.register, d) (.register, d')) :
      Grounds (.lw d x) (.lw d' x)
  | sw {r r' x : Text} (hr : Token.Grounds (.register, r) (.register, r')) :
      Grounds (.sw r x) (.sw r' x)
  | branch {c : Condition} {r r' t t' l : Text}
      (hr : Token.Grounds (.register, r) (.register, r'))
      (ht : Token.Grounds (.register, t) (.register, t')) :
      Grounds (.branch c r t l) (.branch c r' t' l)

inductive Rewrites (f f' : Form) : Text → Text → Prop
  | intro {name gap operands operands' : Text} (hforms : f.Grounds f')
      (hname : Text.lower name = f.kind.name) (hgap : gap ≠ [])
      (hblank : ∀ c ∈ gap, Text.isBlank c = true)
      (h : Listed.Grounds f.tokens f'.tokens operands operands') :
      Rewrites f f' (name ++ (gap ++ operands)) (name ++ (gap ++ operands'))

section Rewriting
variable {f f' : Form} {t t' : Text}

theorem Grounds.kind_eq (h : f.Grounds f') : f'.kind = f.kind := by
  cases h with
  | @arith op => cases op <;> rfl
  | @branch c => cases c <;> rfl
  | _ => rfl

theorem Grounds.tokens (h : f.Grounds f') : List.Forall₂ Token.Grounds f.tokens f'.tokens := by
  cases h with
  | li hd => exact .cons hd (.cons .same .nil)
  | la hd => exact .cons hd (.cons .same .nil)
  | move hd hr => exact .cons hd (.cons hr .nil)
  | addi hd hr => exact .cons hd (.cons hr (.cons .same .nil))
  | arith hd hr ht => exact .cons hd (.cons hr (.cons ht .nil))
  | lw hd => exact .cons hd (.cons .same .nil)
  | sw hr => exact .cons hr (.cons .same .nil)
  | branch hr ht => exact .cons hr (.cons ht (.cons .same .nil))

theorem grounded_ofResolved {α : Type} (operand : Option α) {build build' : α → Operation}
    (defect : Defect) (h : ∀ a, (build' a).grounded = (build a).grounded) :
    (Operation.ofResolved operand build' defect).grounded =
      (Operation.ofResolved operand build defect).grounded := by
  cases operand with
  | none => rfl
  | some a => exact h a

theorem Grounds.operation_eq (h : f.Grounds f') (s : Symbols) :
    (f'.operation s).grounded = (f.operation s).grounded := by
  cases h with
  | li hd =>
    refine grounded_ofResolved _ _ fun a => ?_
    simp only [Operation.grounded, hd.grounded_eq]
  | la hd =>
    refine grounded_ofResolved _ _ fun a => ?_
    simp only [Operation.grounded, hd.grounded_eq]
  | move hd hr => simp only [operation, Operation.grounded, hd.grounded_eq, hr.grounded_eq]
  | addi hd hr =>
    refine grounded_ofResolved _ _ fun a => ?_
    simp only [Operation.grounded, hd.grounded_eq, hr.grounded_eq]
  | arith hd hr ht =>
    simp only [operation, Operation.grounded, hd.grounded_eq, hr.grounded_eq, ht.grounded_eq]
  | lw hd =>
    refine grounded_ofResolved _ _ fun a => ?_
    simp only [Operation.grounded, hd.grounded_eq]
  | sw hr =>
    refine grounded_ofResolved _ _ fun a => ?_
    simp only [Operation.grounded, hr.grounded_eq]
  | branch hr ht => simp only [operation, Operation.grounded, hr.grounded_eq, ht.grounded_eq]

theorem Rewrites.left (h : f.Rewrites f' t t') : f.Written t := by
  cases h with
  | intro _ hname hgap hblank h => exact .full hname hgap hblank h.left

theorem Rewrites.right (h : f.Rewrites f' t t') : f'.Written t' := by
  cases h with
  | intro hforms hname hgap hblank h =>
    exact .full (hforms.kind_eq.symm ▸ hname) hgap hblank h.right

theorem Rewrites.forms (h : f.Rewrites f' t t') : f.Grounds f' := by
  cases h with
  | intro hforms => exact hforms

theorem Rewrites.not_mem (h : f.Rewrites f' t t') {c : Char} (hc : c ∉ ofString "$zero")
    (ht : c ∉ t) : c ∉ t' := by
  cases h with
  | intro _ _ _ _ h =>
    simp only [List.mem_append, not_or] at ht ⊢
    exact ⟨ht.1, ht.2.1, h.not_mem hc ht.2.2⟩

theorem Written.exists_rewrites (h : f.Written t) (hforms : f.Grounds f') :
    ∃ t', f.Rewrites f' t t' := by
  cases h with
  | bare _ hbare =>
    have htokens := hforms.tokens
    cases hforms <;> cases hbare
  | full hname hgap hblank h =>
    obtain ⟨operands', hoperands⟩ := h.exists_grounds hforms.tokens
    exact ⟨_, .intro hforms hname hgap hblank hoperands⟩

end Rewriting

end Form

namespace Draft

/-- Two source lines that are the same round their instructions, which are
written alike. -/
inductive Rewrites (f f' : Form) : Text → Text → Prop
  | intro {lead trail t t' : Text} (hlead : Lead lead) (htrail : Trail trail) (hhash : '#' ∉ t)
      (h : f.Rewrites f' t t') : Rewrites f f' (lead ++ t ++ trail) (lead ++ t' ++ trail)

variable {f f' : Form} {raw raw' : Text}

theorem exists_rewrites (hplain : Plain (strip raw)) (hwritten : f.Written (body (strip raw)))
    (hforms : f.Grounds f') : ∃ raw', Rewrites f f' raw raw' := by
  obtain ⟨lead, trail, hlead, htrail, hraw⟩ := exists_lead_trail hplain
  obtain ⟨t', ht'⟩ := hwritten.exists_rewrites hforms
  have hhash : '#' ∉ body (strip raw) := fun hmem =>
    hash_not_mem_strip raw ((body_sublist _).subset hmem)
  rw [hraw]
  exact ⟨_, .intro hlead htrail hhash ht'⟩

/-- The two programs are the same but for the one instruction, which is the
same once grounded. -/
theorem Rewrites.load {source : Text} {before after : List Text} (h : Rewrites f f' raw raw')
    (hsplit : source.splitOn '\n' = before ++ raw :: after)
    (hseg : before.foldl segmentAfter .text = .text) :
    ∃ p p', MipsStepper.load source = .ok p ∧
      MipsStepper.load (relined before [raw'] after) = .ok p' ∧ p.SameGrounded p' := by
  have hraw := newline_not_mem_of_splitOn hsplit
  obtain @⟨lead, trail, t, t', hlead, htrail, hhash, h⟩ := h
  have hraw' : '\n' ∉ lead ++ t' ++ trail := by
    simp only [List.mem_append, not_or] at hraw ⊢
    exact ⟨⟨hraw.1.1, h.not_mem (by decide +kernel) hraw.1.2⟩, hraw.2⟩
  have hsplit' : (relined before [lead ++ t' ++ trail] after).splitOn '\n' =
      before ++ (lead ++ t' ++ trail) :: after := by
    rw [splitOn_relined hsplit (List.forall_mem_singleton.mpr hraw')]
    simp
  have hhash' : '#' ∉ t' := h.not_mem (by decide +kernel) hhash
  obtain ⟨d, front, back, hd⟩ := ofLines_place hseg hlead after
  have hdraft := hd h.left hhash htrail
  have hdraft' := hd h.right hhash' htrail
  rw [← hsplit] at hdraft
  rw [← hsplit'] at hdraft'
  refine ⟨_, _, load_of_lines hdraft (by simp [withLines]),
    load_of_lines hdraft' (by simp [withLines]), rfl, ?_⟩
  simp [Program.groundedOperations, program, withLines, decode_form h.left, decode_form h.right,
    h.forms.operation_eq]

end Draft

theorem decode_unknown_base {source line x front inner : Text} {p : Program}
    {fields : MemOperand → Fields} (hload : load source = .ok p) (hline : Accessing line x fields)
    (hcut : Operand.Parenthesized x front inner) (hinner : Token.register.Spells inner)
    (hbase : Register.named? inner = none) :
    (Instruction.decode p.symbols line).operation.kind = .invalid := by
  have hnone : Operand.memory? p.symbols x = none := by
    rw [hcut.memory?_register (load_namesSpelled hload) hline.trim_eq hinner,
      Option.eq_none_iff_forall_ne_some]
    intro m hm
    obtain ⟨n, r, -, hr, -⟩ := Operand.based?_eq_some_iff.mp hm
    rw [hbase] at hr
    cases hr
  have hfields := hline.decode_eq p.symbols
  rw [hnone] at hfields
  exact congrArg Fields.kind hfields

namespace Machine

/-- An operand outside the table is as good as `$zero`. A machine does the
same with 0 for every register of its program that is -1, in its records and
in its instructions. In any line of the text segment that is an instruction
some or all of the register names outside the table can be replaced by
`$zero`, and no machine of the source does anything else then. Base registers
are never outside the table, as such a line is invalid. -/
theorem unknown_registers_zero :
    (∀ m : Machine,
      (∀ n, stepNAt (m.program.records.map Record.grounded) n m = .ok (stepN n m)) ∧
      m.program.grounded.records.map Record.grounded = m.program.records.map Record.grounded ∧
      (∀ n, stepN n { m with program := m.program.grounded } =
        { stepN n m with program := m.program.grounded }) ∧
      run { m with program := m.program.grounded } =
        { m.run with program := m.program.grounded }) ∧
    (∀ {source raw raw' : Text} {before after : List Text} {f f' : Form},
      source.splitOn '\n' = before ++ raw :: after →
      before.foldl Draft.segmentAfter .text = .text → Draft.Rewrites f f' raw raw' →
      let source' := relined before [raw'] after
      ∃ p', load source' = .ok p' ∧ ∀ o,
        (∀ n, stepN n (create source' o) =
          { stepN n (create source o) with source := source', program := p' }) ∧
        run (create source' o) =
          { run (create source o) with source := source', program := p' }) ∧
    (∀ {raw : Text} {f f' : Form}, Draft.Plain (Draft.strip raw) →
      f.Written (Draft.body (Draft.strip raw)) → f.Grounds f' →
      ∃ raw', Draft.Rewrites f f' raw raw') ∧
    ∀ {source line x front inner : Text} {p : Program} {fields : MemOperand → Fields},
      load source = .ok p → Accessing line x fields → Operand.Parenthesized x front inner →
      Token.register.Spells inner → Register.named? inner = none →
      (Instruction.decode p.symbols line).operation.kind = .invalid := by
  refine ⟨fun m => ⟨fun n => ?_, m.program.records_grounded, program_grounded m⟩,
    fun hsplit hseg hline => ?_, Draft.exists_rewrites, decode_unknown_base⟩
  · rw [stepNAt_grounded, stepNAt_records]
  · obtain ⟨p, p', hload, hload', h⟩ := hline.load hsplit hseg
    exact ⟨p', hload', create_sameGrounded hload hload' h⟩

end Machine

section Capitals

theorem capitals_unknown :
    Token.register.Spells (ofString "$T1") ∧ Register.named? (ofString "$T1") = none :=
  ⟨(Operand.isRegister_iff _).mp (by decide +kernel), by decide +kernel⟩

theorem capitals_form : Form.Rewrites (.move (ofString "$t0") (ofString "$T1"))
    (.move (ofString "$t0") (ofString "$zero")) (ofString "MOVE $t0 ,$T1")
    (ofString "MOVE $t0 ,$zero") := by
  have hoperands : Listed.Grounds
      [(.register, ofString "$t0"), (.register, ofString "$T1")]
      [(.register, ofString "$t0"), (.register, ofString "$zero")]
      (ofString "$t0" ++ [' '] ++ ',' :: ([] ++ ofString "$T1"))
      (ofString "$t0" ++ [' '] ++ ',' :: ([] ++ ofString "$zero")) :=
    .more (name_spells 8).1 (by decide) .same Text.space_blank (List.forall_mem_nil _)
      (.last capitals_unknown.1 (.zero capitals_unknown.2))
  have hform := Form.Rewrites.intro (.move .same (.zero capitals_unknown.2))
    (by decide +kernel : Text.lower (ofString "MOVE") = _) (List.cons_ne_nil ' ' [])
    Text.space_blank hoperands
  have hline : ofString "MOVE" ++ ([' '] ++
      (ofString "$t0" ++ [' '] ++ ',' :: ([] ++ ofString "$T1"))) = ofString "MOVE $t0 ,$T1" := by
    decide +kernel
  have hline' : ofString "MOVE" ++ ([' '] ++
      (ofString "$t0" ++ [' '] ++ ',' :: ([] ++ ofString "$zero"))) =
      ofString "MOVE $t0 ,$zero" := by
    decide +kernel
  rwa [hline, hline'] at hform

theorem capitals_rewrites : Draft.Rewrites (.move (ofString "$t0") (ofString "$T1"))
    (.move (ofString "$t0") (ofString "$zero")) (ofString "next: MOVE $t0 ,$T1 # copy")
    (ofString "next: MOVE $t0 ,$zero # copy") := by
  have hlead : Draft.Lead ([] ++ (Draft.labelLine (ofString "next") ++ [' '])) :=
    .label (List.forall_mem_nil _) (by decide +kernel) (by decide +kernel) Text.space_blank
  have htrail : Draft.Trail ([' '] ++ '#' :: ofString " copy") := .comment Text.space_blank _
  have hline := Draft.Rewrites.intro hlead htrail (by decide +kernel) capitals_form
  have hraw : [] ++ (Draft.labelLine (ofString "next") ++ [' ']) ++ ofString "MOVE $t0 ,$T1" ++
      ([' '] ++ '#' :: ofString " copy") = ofString "next: MOVE $t0 ,$T1 # copy" := by decide +kernel
  have hraw' : [] ++ (Draft.labelLine (ofString "next") ++ [' ']) ++ ofString "MOVE $t0 ,$zero" ++
      ([' '] ++ '#' :: ofString " copy") = ofString "next: MOVE $t0 ,$zero # copy" := by
    decide +kernel
  rwa [hraw, hraw'] at hline

theorem capitals_accessing : Accessing (ofString "lw $t2, 4($T1)") (ofString "4($T1)") fun m =>
    { kind := .lw, rd := some 10, memOperand? := some m } := by
  have haddress : Token.address.Spells (ofString "4($T1)") :=
    ⟨by decide +kernel, by decide +kernel⟩
  have hwritten : (Form.lw (ofString "$t2") (ofString "4($T1)")).Written
      (Form.lw (ofString "$t2") (ofString "4($T1)")).line :=
    Form.written_line (by simpa [Form.tokens] using ⟨(name_spells 10).1, haddress⟩)
  have hline : (Form.lw (ofString "$t2") (ofString "4($T1)")).line =
      Text.trim (ofString "lw $t2, 4($T1)") := by decide +kernel
  have hnamed : Register.named? (ofString "$t2") = some 10 := by decide +kernel
  rw [hline] at hwritten
  exact hnamed ▸ Accessing.load hwritten

theorem unknown_registers_zero_capitals :
    let raw := ofString "next: MOVE $t0 ,$T1 # copy"
    let source := ofString "next: MOVE $t0 ,$T1 # copy\nlw $t2, 4($T1)"
    let source' := ofString "next: MOVE $t0 ,$zero # copy\nlw $t2, 4($T1)"
    (∃ p', load source' = .ok p' ∧ (Machine.create source' {}).run =
      { (Machine.create source {}).run with source := source', program := p' }) ∧
    (∃ raw', Draft.Rewrites (.move (ofString "$t0") (ofString "$T1"))
      (.move (ofString "$t0") (ofString "$zero")) raw raw') ∧
    ∃ p, load source = .ok p ∧
      (Instruction.decode p.symbols (ofString "lw $t2, 4($T1)")).operation.kind = .invalid := by
  intro raw source source'
  obtain ⟨-, hruns, hrewrites, hinvalid⟩ := Machine.unknown_registers_zero
  have hsplit : source.splitOn '\n' = [] ++ raw :: [ofString "lw $t2, 4($T1)"] := by
    decide +kernel
  have hsource' : relined [] [ofString "next: MOVE $t0 ,$zero # copy"]
      [ofString "lw $t2, 4($T1)"] = source' := by decide +kernel
  obtain ⟨p', hload', hrun⟩ := hruns hsplit rfl capitals_rewrites
  rw [hsource'] at hload' hrun
  have hplain : Draft.Plain (Draft.strip raw) := by decide +kernel
  have hbody : Draft.body (Draft.strip raw) = ofString "MOVE $t0 ,$T1" := by decide +kernel
  have hlines : (Draft.ofSource source).lines ≠ [] := by decide +kernel
  have hload : load source = .ok (Draft.ofSource source).program := load_of_lines rfl hlines
  have hbase : Operand.Parenthesized (ofString "4($T1)") ['4'] (ofString "$T1") :=
    ⟨by decide +kernel, by decide +kernel⟩
  exact ⟨⟨p', hload', (hrun {}).2⟩,
    hrewrites hplain (hbody.symm ▸ capitals_form.left) capitals_form.forms, _, hload,
    hinvalid hload capitals_accessing hbase capitals_unknown.1 capitals_unknown.2⟩

end Capitals

end MipsStepper
