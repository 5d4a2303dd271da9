import MipsStepper.Proofs.Targets

/-!
# Renumbered instructions

One more instruction at index `n` moves the instructions from there on up by
one. A label moves with the instruction that follows it, and a label of the
index `n` itself may come to stand before the new instruction or after it. A
line is decoded to the same operation under moved labels, but for its target.
-/

set_option autoImplicit false

namespace MipsStepper

def renumber (n i : Int) : Int := if i < n then i else i + 1

/-- The new index leads to what was at the old one: at once, or by way of the
instruction that is new. -/
def LeadsTo (n i i' : Int) : Prop := i' = renumber n i ∨ i = n ∧ i' = n

theorem LeadsTo.neg_iff {n i i' : Int} (hn : 0 ≤ n) (h : LeadsTo n i i') : i' < 0 ↔ i < 0 := by
  unfold LeadsTo renumber at h
  split_ifs at h <;> omega

theorem leadsTo_self {n i : Int} (h : i ≤ n) : LeadsTo n i i := by
  unfold LeadsTo renumber
  split_ifs <;> omega

theorem leadsTo_next (n i : Int) : LeadsTo n (i + 1) (renumber n i + 1) := by
  unfold LeadsTo renumber
  split_ifs <;> omega

/-- The same data labels, and the same text labels at moved indices. -/
structure Symbols.Moved (n : Int) (s s' : Symbols) : Prop where
  dataLabels : s'.dataLabels = s.dataLabels
  labels : ∀ l, Option.Rel (LeadsTo n) (s.index? l) (s'.index? l)

namespace Operation

inductive Moved (n : Int) : Operation → Operation → Prop where
  | same {o : Operation} (h : o.target? = none) : Moved n o o
  | branch {c : Condition} {rs rt : Option Register} {l : Text} {t t' : Option Int}
      (h : Option.Rel (LeadsTo n) t t') : Moved n (.branch c rs rt l t) (.branch c rs rt l t')
  | jump {l : Text} {i i' : Int} (h : LeadsTo n i i') : Moved n (.jump l i) (.jump l i')

/-- An operation as its line alone gives it, before any label is resolved. -/
def unresolved : Operation → Operation
  | .branch c rs rt l _ => .branch c rs rt l none
  | .jump l _ => .jump l 0
  | o => o

section Decoding
variable {n : Int} {s s' : Symbols}

theorem moved_of_resolved (h : s.Moved n s') {o o' : Operation} (ho : o.ResolvedBy s)
    (ho' : o'.ResolvedBy s') (heq : o.unresolved = o'.unresolved) : Moved n o o' := by
  -- Only the eleven pairs of one constructor are left.
  cases o <;> cases o' <;> cases heq
  case branch.branch.refl c rs rt l t t' =>
    simp only [ResolvedBy] at ho ho'
    rw [ho, ho']
    exact .branch (h.labels l)
  case jump.jump.refl l i i' =>
    simp only [ResolvedBy] at ho ho'
    have hl := h.labels l
    rw [ho, ho'] at hl
    cases hl with
    | some hi => exact .jump hi
  all_goals exact .same rfl

theorem la?_moved (h : s.Moved n s') (xs : List Text) : la? s' xs = la? s xs := by
  simp [la?, Symbols.address?, h.dataLabels]

theorem access?_moved (h : s.Moved n s') (build : Option Register → MemOperand → Operation)
    (t : Text) : access? s' build t = access? s build t := by
  simp [access?, Operand.memory?, Operand.absolute?, Symbols.address?, h.dataLabels]

theorem branch?_unresolved (c : Condition) (xs : List Text) :
    (branch? s c xs).map unresolved = (branch? s' c xs).map unresolved := by
  unfold branch?
  split
  · split_ifs <;> rfl
  · rfl

theorem jump?_unresolved (h : s.Moved n s') (t : Text) :
    (jump? s t).map unresolved = (jump? s' t).map unresolved := by
  have hl := h.labels t
  unfold jump?
  generalize s.index? t = target at hl ⊢
  generalize s'.index? t = target' at hl ⊢
  split_ifs
  · cases hl <;> rfl
  · rfl

theorem withOperands?_unresolved (h : s.Moved n s') (t : Text) (k : Kind) :
    (withOperands? s t k).map unresolved = (withOperands? s' t k).map unresolved := by
  cases k with
  | la => rw [withOperands?, withOperands?, la?_moved h]
  | lw => rw [withOperands?, withOperands?, access?_moved h]
  | sw => rw [withOperands?, withOperands?, access?_moved h]
  | beq => exact branch?_unresolved .equal _
  | bne => exact branch?_unresolved .different _
  | j => exact jump?_unresolved h t
  | _ => rfl

theorem ofText?_unresolved (h : s.Moved n s') (line : Text) :
    (ofText? s line).map unresolved = (ofText? s' line).map unresolved := by
  unfold ofText?
  cases Kind.named? (Text.lower (line.takeWhile fun c => !Text.isBlank c)) with
  | none => rfl
  | some k =>
    simp only [Option.bind_some]
    split
    · rfl
    · exact withOperands?_unresolved h _ k

end Decoding

end Operation

structure Instruction.Moved (n : Int) (i i' : Instruction) : Prop where
  text : i'.text = i.text
  operation : i.operation.Moved n i'.operation

theorem Instruction.decode_moved {n : Int} {s s' : Symbols} (h : s.Moved n s') (line : Text) :
    (decode s line).Moved n (decode s' line) where
  text := rfl
  operation := by
    apply Operation.moved_of_resolved h (decode_resolved s line) (decode_resolved s' line)
    have hline := Operation.ofText?_unresolved h (Text.trim line)
    unfold decode
    cases ho : Operation.ofText? s (Text.trim line) <;>
      cases ho' : Operation.ofText? s' (Text.trim line) <;> simp_all

end MipsStepper
