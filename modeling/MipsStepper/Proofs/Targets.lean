import MipsStepper.Proofs.Labels

/-!
# Targets of branches and jumps

Decoding copies the label table: a branch carries what the table says of its
label, found or not, and a jump exists only with a label that was found. In
a loaded program every target is therefore an instruction index or the end.
-/

set_option autoImplicit false

namespace MipsStepper

namespace Operation

/-- A branch and a jump carry what the table says of their label. -/
def ResolvedBy (s : Symbols) : Operation → Prop
  | .branch _ _ _ l target => target = s.index? l
  | .jump l target => s.index? l = some target
  | _ => True

variable {s : Symbols} {o : Operation}

theorem ofResolved_resolved {α : Type} {operand : Option α} {build : α → Operation}
    {defect : Defect} (h : ∀ a, operand = some a → (build a).ResolvedBy s) :
    (ofResolved operand build defect).ResolvedBy s := by
  cases operand with
  | none => trivial
  | some a => exact h a rfl

theorem resolved_of_shape {shape : Bool} {o' : Operation}
    (h : (if shape then some o' else none) = some o) (ho : o'.ResolvedBy s) :
    o.ResolvedBy s := by
  cases shape with
  | false => cases h
  | true =>
    cases h
    exact ho

theorem li?_resolved {xs : List Text} (h : li? xs = some o) : o.ResolvedBy s := by
  unfold li? at h
  split at h
  · apply resolved_of_shape h
    exact ofResolved_resolved fun _ _ => trivial
  · cases h

theorem la?_resolved {xs : List Text} (h : la? s xs = some o) : o.ResolvedBy s := by
  unfold la? at h
  split at h
  · apply resolved_of_shape h
    exact ofResolved_resolved fun _ _ => trivial
  · cases h

theorem move?_resolved {xs : List Text} (h : move? xs = some o) : o.ResolvedBy s := by
  unfold move? at h
  split at h
  · exact resolved_of_shape h trivial
  · cases h

theorem addi?_resolved {xs : List Text} (h : addi? xs = some o) : o.ResolvedBy s := by
  unfold addi? at h
  split at h
  · apply resolved_of_shape h
    exact ofResolved_resolved fun _ _ => trivial
  · cases h

theorem arith?_resolved {op : ArithOp} {xs : List Text} (h : arith? op xs = some o) :
    o.ResolvedBy s := by
  unfold arith? at h
  split at h
  · exact resolved_of_shape h trivial
  · cases h

theorem access?_resolved (build : Option Register → MemOperand → Operation)
    (hb : ∀ r x, (build r x).ResolvedBy s) {t : Text} (h : access? s build t = some o) :
    o.ResolvedBy s := by
  unfold access? at h
  split at h
  · cases h
  · apply resolved_of_shape h
    exact ofResolved_resolved fun x _ => hb _ x

theorem branch?_resolved {c : Condition} {xs : List Text} (h : branch? s c xs = some o) :
    o.ResolvedBy s := by
  unfold branch? at h
  split at h
  · exact resolved_of_shape h rfl
  · cases h

theorem jump?_resolved {t : Text} (h : jump? s t = some o) : o.ResolvedBy s := by
  unfold jump? at h
  apply resolved_of_shape h
  exact ofResolved_resolved fun _ hi => hi

theorem withOperands?_resolved {t : Text} {k : Kind} (h : withOperands? s t k = some o) :
    o.ResolvedBy s := by
  cases k with
  | li => exact li?_resolved h
  | la => exact la?_resolved h
  | move => exact move?_resolved h
  | addi => exact addi?_resolved h
  | add => exact arith?_resolved h
  | sub => exact arith?_resolved h
  | lw => exact access?_resolved .lw (fun _ _ => trivial) h
  | sw => exact access?_resolved .sw (fun _ _ => trivial) h
  | beq => exact branch?_resolved h
  | bne => exact branch?_resolved h
  | j => exact jump?_resolved h
  | syscall => cases h
  | invalid => cases h
  | unsupported => cases h

theorem withoutOperands?_resolved {k : Kind} (h : withoutOperands? k = some o) :
    o.ResolvedBy s := by
  cases k <;> cases h
  trivial

theorem ofText?_resolved {line : Text} (h : ofText? s line = some o) : o.ResolvedBy s := by
  unfold ofText? at h
  obtain ⟨k, _, hk⟩ := Option.bind_eq_some_iff.mp h
  split at hk
  · exact withoutOperands?_resolved hk
  · exact withOperands?_resolved hk

end Operation

theorem Instruction.decode_resolved (s : Symbols) (line : Text) :
    (decode s line).operation.ResolvedBy s := by
  cases h : Operation.ofText? s (Text.trim line) with
  | none => simp [decode, h, Operation.ResolvedBy]
  | some o => simpa [decode, h] using Operation.ofText?_resolved h

section Loaded
variable {source : Text} {p : Program}

theorem load_eq_ok (h : load source = .ok p) :
    p = (Draft.ofLines (source.splitOn '\n')).program := by
  simp only [load] at h
  split_ifs at h
  cases h
  rfl

theorem load_of_lines {d : Draft} (h : Draft.ofLines (source.splitOn '\n') = d)
    (hlines : d.lines ≠ []) : load source = .ok d.program := by
  have hd : Draft.ofSource source = d := h
  rw [load, hd, if_neg hlines]

theorem load_size (h : load source = .ok p) :
    p.size = (Draft.ofLines (source.splitOn '\n')).lines.length := by
  rw [load_eq_ok h]
  simp [Program.size, Draft.program]

theorem load_resolved (h : load source = .ok p) {i : Instruction} (hi : i ∈ p.instructions) :
    i.operation.ResolvedBy p.symbols := by
  rw [load_eq_ok h] at hi ⊢
  obtain ⟨line, _, rfl⟩ := List.mem_map.mp hi
  exact Instruction.decode_resolved _ line

theorem load_index?_range (h : load source = .ok p) {l : Text} {i : Int}
    (hl : p.symbols.index? l = some i) : 0 ≤ i ∧ i ≤ p.size := by
  rw [load_size h]
  rw [load_eq_ok h] at hl
  exact Draft.index?_ofLines_range hl

theorem load_index?_eq_none_iff (h : load source = .ok p) (l : Text) :
    p.symbols.index? l = none ↔ ¬ Draft.TextLabel (source.splitOn '\n') l := by
  rw [load_eq_ok h]
  exact Draft.index?_ofLines_eq_none_iff _ l

theorem load_label_missing (h : load source = .ok p) {l : Text}
    (missing : ∀ i, p.symbols.index? l = some i → i < 0) :
    ¬ Draft.TextLabel (source.splitOn '\n') l := by
  rw [← load_index?_eq_none_iff h]
  cases hl : p.symbols.index? l with
  | none => rfl
  | some i =>
    have hneg := missing i hl
    have hrange := load_index?_range h hl
    omega

theorem load_target_range (h : load source = .ok p) {i : Instruction} (hi : i ∈ p.instructions)
    {target : Int} (ht : i.operation.target? = some target) : 0 ≤ target ∧ target ≤ p.size := by
  have hr := load_resolved h hi
  cases ho : i.operation with
  | branch c rs rt l t =>
    simp only [ho, Operation.target?, Operation.ResolvedBy] at ht hr
    exact load_index?_range h (hr.symm.trans ht)
  | jump l t =>
    simp only [ho, Operation.target?, Operation.ResolvedBy, Option.some.injEq] at ht hr
    subst ht
    exact load_index?_range h hr
  | _ => simp [ho, Operation.target?] at ht

end Loaded

end MipsStepper
