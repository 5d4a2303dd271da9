import Mathlib.Data.List.TakeWhile
import Mathlib.Tactic.SplitIfs
import MipsStepper.Instruction.Record
import MipsStepper.Proofs.OperandList

/-!
# The grammar of instruction lines

A line is a mnemonic in any case and, after blanks, the operands of its form.
Decoding accepts the lines of this grammar and no others, and it gives each
the fields that its operands denote. A line whose operand denotes nothing has
the message of this operand and no other field.
-/

set_option autoImplicit false

namespace MipsStepper
open Text (ofString)

/-- The forms of instruction lines, with their operands as they are written. -/
inductive Form where
  | li (rd value : Text)
  | la (rd label : Text)
  | move (rd rs : Text)
  | addi (rd rs value : Text)
  | arith (op : ArithOp) (rd rs rt : Text)
  | lw (rd operand : Text)
  | sw (rs operand : Text)
  | branch (condition : Condition) (rs rt label : Text)
  | jump (label : Text)
  | syscall
deriving DecidableEq

namespace Form

def kind : Form → Kind
  | .li .. => .li
  | .la .. => .la
  | .move .. => .move
  | .addi .. => .addi
  | .arith .add .. => .add
  | .arith .sub .. => .sub
  | .lw .. => .lw
  | .sw .. => .sw
  | .branch .equal .. => .beq
  | .branch .different .. => .bne
  | .jump .. => .j
  | .syscall => .syscall

def tokens : Form → List (Token × Text)
  | .li d v => [(.register, d), (.immediate, v)]
  | .la d l => [(.register, d), (.label, l)]
  | .move d r => [(.register, d), (.register, r)]
  | .addi d r v => [(.register, d), (.register, r), (.immediate, v)]
  | .arith _ d r t => [(.register, d), (.register, r), (.register, t)]
  | .lw d x => [(.register, d), (.address, x)]
  | .sw r x => [(.register, r), (.address, x)]
  | .branch _ r t l => [(.register, r), (.register, t), (.label, l)]
  | .jump l => [(.label, l)]
  | .syscall => []

inductive Written : Form → Text → Prop
  | bare {f : Form} {name : Text} (hname : Text.lower name = f.kind.name) (h : f.tokens = []) :
      Written f name
  | full {f : Form} {name gap operands : Text} (hname : Text.lower name = f.kind.name)
      (hgap : gap ≠ []) (hblank : ∀ c ∈ gap, Text.isBlank c = true)
      (h : Listed f.tokens operands) : Written f (name ++ (gap ++ operands))

def Rejected (s : Symbols) : Form → Prop
  | .li _ v => Literal.read? v = none
  | .la _ l => s.address? l = none
  | .addi _ _ v => Literal.read? v = none
  | .lw _ x => Operand.memory? s x = none
  | .sw _ x => Operand.memory? s x = none
  | .jump l => s.index? l = none
  | _ => False

def complaint : Form → Text
  | .li _ v => ofString "Invalid immediate value: " ++ v
  | .la _ l => ofString "Unknown data label: " ++ l
  | .addi _ _ v => ofString "Invalid immediate value: " ++ v
  | .lw _ x => ofString "Invalid memory operand: " ++ x
  | .sw _ x => ofString "Invalid memory operand: " ++ x
  | .jump l => ofString "Unknown label: " ++ l
  | _ => []

end Form

namespace Form
open Register (named?)

inductive Denotes (s : Symbols) : Form → Fields → Prop
  | li {d v : Text} {n : Word} (h : Literal.read? v = some n) :
      Denotes s (.li d v) { kind := .li, rd := named? d, immediate := n }
  | la {d l : Text} {a : Word} (h : s.address? l = some a) :
      Denotes s (.la d l) { kind := .la, rd := named? d, immediate := a }
  | move {d r : Text} : Denotes s (.move d r) { kind := .move, rd := named? d, rs := named? r }
  | addi {d r v : Text} {n : Word} (h : Literal.read? v = some n) :
      Denotes s (.addi d r v) { kind := .addi, rd := named? d, rs := named? r, immediate := n }
  | add {d r t : Text} : Denotes s (.arith .add d r t)
      { kind := .add, rd := named? d, rs := named? r, rt := named? t }
  | sub {d r t : Text} : Denotes s (.arith .sub d r t)
      { kind := .sub, rd := named? d, rs := named? r, rt := named? t }
  | lw {d x : Text} {p : MemOperand} (h : Operand.memory? s x = some p) :
      Denotes s (.lw d x) { kind := .lw, rd := named? d, memOperand? := some p }
  | sw {r x : Text} {p : MemOperand} (h : Operand.memory? s x = some p) :
      Denotes s (.sw r x) { kind := .sw, rs := named? r, memOperand? := some p }
  | beq {r t l : Text} : Denotes s (.branch .equal r t l)
      { kind := .beq, rs := named? r, rt := named? t, label := l
        target := (s.index? l).getD (-1) }
  | bne {r t l : Text} : Denotes s (.branch .different r t l)
      { kind := .bne, rs := named? r, rt := named? t, label := l
        target := (s.index? l).getD (-1) }
  | jump {l : Text} {i : Int} (h : s.index? l = some i) :
      Denotes s (.jump l) { kind := .j, label := l, target := i }
  | syscall : Denotes s .syscall { kind := .syscall }
  | rejected {f : Form} (h : f.Rejected s) :
      Denotes s f { kind := .invalid, error := f.complaint }

def operation (s : Symbols) : Form → Operation
  | .li d v => .ofResolved (Literal.read? v) (.li (named? d)) (.immediate v)
  | .la d l => .ofResolved (s.address? l) (.la (named? d)) (.dataLabel l)
  | .move d r => .move (named? d) (named? r)
  | .addi d r v => .ofResolved (Literal.read? v) (.addi (named? d) (named? r)) (.immediate v)
  | .arith op d r t => .arith op (named? d) (named? r) (named? t)
  | .lw d x => .ofResolved (Operand.memory? s x) (.lw (named? d)) (.memoryOperand x)
  | .sw r x => .ofResolved (Operand.memory? s x) (.sw (named? r)) (.memoryOperand x)
  | .branch c r t l => .branch c (named? r) (named? t) l (s.index? l)
  | .jump l => .ofResolved (s.index? l) (.jump l) (.label l)
  | .syscall => .syscall

variable {s : Symbols} {f : Form} {t : Text}

theorem ofResolved_denotes {α : Type} {operand : Option α} {build : α → Operation}
    {defect : Defect}
    (hsome : ∀ a, operand = some a → f.Denotes s (Instruction.fields ⟨t, build a⟩))
    (hnone : operand = none → f.Denotes s (Instruction.fields ⟨t, .defective defect⟩)) :
    f.Denotes s (Instruction.fields ⟨t, .ofResolved operand build defect⟩) := by
  cases h : operand with
  | none => exact hnone h
  | some a => exact hsome a h

theorem operation_denotes (s : Symbols) (f : Form) (t : Text) :
    f.Denotes s (Instruction.fields ⟨t, f.operation s⟩) := by
  cases f with
  | li d v => exact ofResolved_denotes (fun _ h => .li h) (fun h => .rejected h)
  | la d l => exact ofResolved_denotes (fun _ h => .la h) (fun h => .rejected h)
  | move d r => exact .move
  | addi d r v => exact ofResolved_denotes (fun _ h => .addi h) (fun h => .rejected h)
  | arith op d r t =>
    cases op with
    | add => exact .add
    | sub => exact .sub
  | lw d x => exact ofResolved_denotes (fun _ h => .lw h) (fun h => .rejected h)
  | sw r x => exact ofResolved_denotes (fun _ h => .sw h) (fun h => .rejected h)
  | branch c r t l =>
    cases c with
    | equal => exact .beq
    | different => exact .bne
  | jump l => exact ofResolved_denotes (fun _ h => .jump h) (fun h => .rejected h)
  | syscall => exact .syscall

theorem Denotes.kind_ne_unsupported {x : Fields} (h : f.Denotes s x) : x.kind ≠ .unsupported := by
  cases h <;> nofun

theorem Denotes.kind_eq {x : Fields} (h : f.Denotes s x) : x.kind = f.kind ∨ x.kind = .invalid := by
  cases h with
  | rejected _ => exact .inr rfl
  | _ => exact .inl rfl

theorem Denotes.kind_eq_invalid_iff {x : Fields} (h : f.Denotes s x) :
    x.kind = .invalid ↔ f.Rejected s := by
  cases h with
  | rejected h => simpa using h
  | _ => simp_all [Rejected]

end Form

theorem Kind.name_of_named? {t : Text} {k : Kind} (h : Kind.named? t = some k) : k.name = t := by
  simpa using List.find?_some h

theorem Kind.not_blank_of_lower {name : Text} {k : Kind} (h : Text.lower name = k.name) :
    ∀ c ∈ name, Text.isBlank c = false := by
  have hname : k.name.all (fun c => !Text.isBlank c) = true := by cases k <;> decide +kernel
  intro c hc
  have hlower : c.toLower ∈ k.name := by
    rw [← h]
    exact List.mem_map_of_mem hc
  have hblank := List.all_eq_true.mp hname _ hlower
  exact Text.not_blank_of_class (fun d => !Text.isBlank d.toLower) (by decide) hblank

theorem Kind.ne_nil_of_lower {name : Text} {k : Kind} (h : Text.lower name = k.name) :
    name ≠ [] := by
  rintro rfl
  have hname : k.name ≠ [] := by cases k <;> decide +kernel
  exact hname h.symm

section Words
variable {word rest : Text}

theorem takeWhile_word (hword : ∀ c ∈ word, Text.isBlank c = false)
    (hrest : ∀ c, rest.head? = some c → Text.isBlank c = true) :
    (word ++ rest).takeWhile (fun c => !Text.isBlank c) = word := by
  rw [List.takeWhile_append_of_pos (by simpa using hword)]
  cases rest with
  | nil => simp
  | cons c rest => simp [hrest c rfl]

theorem dropWhile_word (hword : ∀ c ∈ word, Text.isBlank c = false)
    (hrest : ∀ c, rest.head? = some c → Text.isBlank c = true) :
    (word ++ rest).dropWhile (fun c => !Text.isBlank c) = rest := by
  rw [List.dropWhile_append_of_pos (by simpa using hword)]
  cases rest with
  | nil => rfl
  | cons c rest => simp [hrest c rfl]

end Words

namespace Form
variable {s : Symbols} {f : Form} {t : Text}

theorem Written.trim_eq (h : f.Written t) : Text.trim t = t := by
  rw [Text.trim_eq_self_iff]
  cases h with
  | bare hname _ =>
    exact (Text.trim_eq_self_iff _).mp (Text.trim_of_not_blank (Kind.not_blank_of_lower hname))
  | @full name gap operands hname _ _ h =>
    obtain ⟨c, name, rfl⟩ := List.exists_cons_of_ne_nil (Kind.ne_nil_of_lower hname)
    obtain ⟨d, operands, rfl⟩ := List.exists_cons_of_ne_nil h.ne_nil
    have hblank := Kind.not_blank_of_lower hname
    have hlast := ((Text.trim_eq_self_iff _).mp h.trim_eq).2
    constructor
    · simpa using hblank c (by simp)
    · simpa [List.getLast?_append, List.getLast?_cons] using hlast

section Access
variable {build : Option Register → MemOperand → Operation} {front : Text}

theorem access?_of_not_mem (h : ',' ∉ t) : Operation.access? s build t = none := by
  have hdrop : t.dropWhile (· ≠ ',') = [] := by
    rw [List.dropWhile_eq_nil_iff]
    intro c hc
    exact decide_eq_true fun hcomma => h (hcomma ▸ hc)
  rw [Operation.access?, hdrop]

theorem access?_append_cons (h : ',' ∉ front) (tail : Text) :
    Operation.access? s build (front ++ ',' :: tail) =
      if Operand.isRegister (Text.trim front) && Text.trim tail ≠ [] then
        some (.ofResolved (Operand.memory? s (Text.trim tail))
          (build (Register.named? (Text.trim front))) (.memoryOperand (Text.trim tail)))
      else none := by
  rw [Operation.access?, Text.dropWhile_cut h, Text.takeWhile_cut h]

theorem access?_of_listed {r x : Text} (h : Listed [(.register, r), (.address, x)] t) :
    Operation.access? s build t =
      some (.ofResolved (Operand.memory? s x) (build (Register.named? r)) (.memoryOperand x)) := by
  have hr := (Operand.isRegister_iff r).mpr (h.spells (.register, r) (by simp))
  have hx : x ≠ [] := (h.spells (.address, x) (by simp)).ne_nil
  obtain ⟨front, tail, rfl, hcomma, rfl, hrest⟩ := h.uncons (by simp)
  rw [access?_append_cons hcomma, hrest.singleton.1]
  simp [hr, hx]

theorem listed_of_access? {o : Operation} (h : Operation.access? s build t = some o) :
    ∃ r x, Listed [(.register, r), (.address, x)] (Text.trim t) := by
  by_cases hcomma : ',' ∈ t
  · obtain ⟨front, tail, rfl, hfront⟩ := List.eq_append_cons_of_mem hcomma
    rw [access?_append_cons hfront] at h
    split_ifs at h with hshape
    simp only [Bool.and_eq_true, Operand.isRegister_iff, decide_eq_true_eq] at hshape
    have haddress : Token.address.Spells (Text.trim tail) := ⟨hshape.2, Text.trim_trim tail⟩
    exact ⟨_, _, .cons nofun hshape.1 (.last haddress)⟩
  · rw [access?_of_not_mem hcomma] at h
    cases h

end Access

def Fits (f : Form) (xs : List Text) : Prop :=
  xs = f.tokens.map Prod.snd ∧ ∀ token ∈ f.tokens, token.1.Spells token.2

section Matching
variable {xs : List Text} {o o' : Operation}

theorem fits_of_shape {shape : Bool} (h : (if shape then some o' else none) = some o)
    (hshape : shape = true → ∀ token ∈ f.tokens, token.1.Spells token.2) :
    f.Fits (f.tokens.map Prod.snd) := by
  split_ifs at h with hs
  exact ⟨rfl, hshape hs⟩

theorem li?_fits (h : Operation.li? xs = some o) : ∃ d v, (Form.li d v).Fits xs := by
  unfold Operation.li? at h
  split at h
  · rename_i d v
    refine ⟨d, v, fits_of_shape h ?_⟩
    simp [tokens, Operand.isRegister_iff, Operand.isImmediate_iff]
  · cases h

theorem la?_fits (h : Operation.la? s xs = some o) : ∃ d l, (Form.la d l).Fits xs := by
  unfold Operation.la? at h
  split at h
  · rename_i d l
    refine ⟨d, l, fits_of_shape h ?_⟩
    simp [tokens, Operand.isRegister_iff, Operand.isLabel_iff]
  · cases h

theorem move?_fits (h : Operation.move? xs = some o) :
    ∃ d r, (Form.move d r).Fits xs := by
  unfold Operation.move? at h
  split at h
  · rename_i d r
    refine ⟨d, r, fits_of_shape h ?_⟩
    simp [tokens, Operand.isRegister_iff]
  · cases h

theorem addi?_fits (h : Operation.addi? xs = some o) :
    ∃ d r v, (Form.addi d r v).Fits xs := by
  unfold Operation.addi? at h
  split at h
  · rename_i d r v
    refine ⟨d, r, v, fits_of_shape h ?_⟩
    simp [tokens, Operand.isRegister_iff, Operand.isImmediate_iff, and_assoc]
  · cases h

theorem arith?_fits {op : ArithOp} (h : Operation.arith? op xs = some o) :
    ∃ d r t, (Form.arith op d r t).Fits xs := by
  unfold Operation.arith? at h
  split at h
  · rename_i d r t
    refine ⟨d, r, t, fits_of_shape h ?_⟩
    simp [tokens, Operand.isRegister_iff, and_assoc]
  · cases h

theorem branch?_fits {c : Condition} (h : Operation.branch? s c xs = some o) :
    ∃ r t l, (Form.branch c r t l).Fits xs := by
  unfold Operation.branch? at h
  split at h
  · rename_i r t l
    refine ⟨r, t, l, fits_of_shape h ?_⟩
    simp [tokens, Operand.isRegister_iff, Operand.isLabel_iff, and_assoc]
  · cases h

end Matching

def addressFree (f : Form) : Bool := f.tokens.all fun token => token.1 ≠ .address

theorem ne_address (h : f.addressFree) : ∀ token ∈ f.tokens, token.1 ≠ .address := by
  simpa [addressFree] using h

theorem Fits.listed (h : f.Fits (Operand.list t)) (hf : f.addressFree) :
    Listed f.tokens (Text.trim t) :=
  .of_list (ne_address hf) h.2 h.1

/-- The case list of mnemonics: what is accepted is written in a form. -/
theorem listed_of_withOperands? {k : Kind} {o : Operation}
    (h : Operation.withOperands? s t k = some o) (htrim : Text.trim t = t) :
    ∃ f : Form, f.kind = k ∧ Listed f.tokens t := by
  rw [← htrim]
  cases k with
  | li =>
    obtain ⟨d, v, hf⟩ := li?_fits h
    exact ⟨.li d v, rfl, hf.listed rfl⟩
  | la =>
    obtain ⟨d, l, hf⟩ := la?_fits h
    exact ⟨.la d l, rfl, hf.listed rfl⟩
  | move =>
    obtain ⟨d, r, hf⟩ := move?_fits h
    exact ⟨.move d r, rfl, hf.listed rfl⟩
  | addi =>
    obtain ⟨d, r, v, hf⟩ := addi?_fits h
    exact ⟨.addi d r v, rfl, hf.listed rfl⟩
  | add =>
    obtain ⟨d, r, x, hf⟩ := arith?_fits h
    exact ⟨.arith .add d r x, rfl, hf.listed rfl⟩
  | sub =>
    obtain ⟨d, r, x, hf⟩ := arith?_fits h
    exact ⟨.arith .sub d r x, rfl, hf.listed rfl⟩
  | lw =>
    obtain ⟨r, x, hlisted⟩ := listed_of_access? h
    exact ⟨.lw r x, rfl, hlisted⟩
  | sw =>
    obtain ⟨r, x, hlisted⟩ := listed_of_access? h
    exact ⟨.sw r x, rfl, hlisted⟩
  | beq =>
    obtain ⟨r, x, l, hf⟩ := branch?_fits h
    exact ⟨.branch .equal r x l, rfl, hf.listed rfl⟩
  | bne =>
    obtain ⟨r, x, l, hf⟩ := branch?_fits h
    exact ⟨.branch .different r x l, rfl, hf.listed rfl⟩
  | j =>
    simp only [Operation.withOperands?, Operation.jump?] at h
    split_ifs at h with hlabel
    rw [htrim]
    exact ⟨.jump t, rfl, .last ((Operand.isLabel_iff t).mp hlabel)⟩
  | _ => cases h

/-- The case list of forms: what is written in a form is accepted. -/
theorem withOperands?_of_listed (h : Listed f.tokens t) :
    Operation.withOperands? s t f.kind = some (f.operation s) := by
  have hspells := h.spells
  cases f with
  | li d v =>
    have hlist : Operand.list t = [d, v] := h.list_eq (ne_address rfl)
    simp only [tokens, List.forall_mem_cons, ← Operand.isRegister_iff,
      ← Operand.isImmediate_iff] at hspells
    simp [kind, Operation.withOperands?, hlist, Operation.li?, hspells, operation]
  | la d l =>
    have hlist : Operand.list t = [d, l] := h.list_eq (ne_address rfl)
    simp only [tokens, List.forall_mem_cons, ← Operand.isRegister_iff,
      ← Operand.isLabel_iff] at hspells
    simp [kind, Operation.withOperands?, hlist, Operation.la?, hspells, operation]
  | move d r =>
    have hlist : Operand.list t = [d, r] := h.list_eq (ne_address rfl)
    simp only [tokens, List.forall_mem_cons, ← Operand.isRegister_iff] at hspells
    simp [kind, Operation.withOperands?, hlist, Operation.move?, hspells, operation]
  | addi d r v =>
    have hlist : Operand.list t = [d, r, v] := h.list_eq (ne_address rfl)
    simp only [tokens, List.forall_mem_cons, ← Operand.isRegister_iff,
      ← Operand.isImmediate_iff] at hspells
    simp [kind, Operation.withOperands?, hlist, Operation.addi?, hspells, operation]
  | arith op d r x =>
    have hlist : Operand.list t = [d, r, x] := h.list_eq (ne_address rfl)
    simp only [tokens, List.forall_mem_cons, ← Operand.isRegister_iff] at hspells
    cases op <;>
      simp [kind, Operation.withOperands?, hlist, Operation.arith?, hspells, operation]
  | lw d x => exact access?_of_listed h
  | sw r x => exact access?_of_listed h
  | branch c r x l =>
    have hlist : Operand.list t = [r, x, l] := h.list_eq (ne_address rfl)
    simp only [tokens, List.forall_mem_cons, ← Operand.isRegister_iff,
      ← Operand.isLabel_iff] at hspells
    cases c <;>
      simp [kind, Operation.withOperands?, hlist, Operation.branch?, hspells, operation]
  | jump l =>
    obtain ⟨rfl, hl⟩ := h.singleton
    have hlabel := (Operand.isLabel_iff t).mpr hl
    simp [kind, Operation.withOperands?, Operation.jump?, hlabel, operation]
  | syscall => cases h

/-- The first word of a line is its mnemonic, and what follows is its list of
operands. -/
theorem Written.cut (h : f.Written t) :
    Text.lower (t.takeWhile fun c => !Text.isBlank c) = f.kind.name ∧
      (f.tokens = [] ∧ (t.dropWhile fun c => !Text.isBlank c) = [] ∨
        f.tokens ≠ [] ∧ Listed f.tokens (Text.trim (t.dropWhile fun c => !Text.isBlank c))) := by
  cases h with
  | bare hname hbare =>
    have hblank := Kind.not_blank_of_lower hname
    have htake := @takeWhile_word t [] hblank (by simp)
    have hdrop := @dropWhile_word t [] hblank (by simp)
    rw [List.append_nil] at htake hdrop
    rw [htake, hdrop]
    exact ⟨hname, .inl ⟨hbare, rfl⟩⟩
  | @full name gap operands hname hgap hblank h =>
    obtain ⟨c, gap, rfl⟩ := List.exists_cons_of_ne_nil hgap
    have hword := Kind.not_blank_of_lower hname
    have hrest : ∀ d, (c :: gap ++ operands).head? = some d → Text.isBlank d = true := by
      simpa using hblank c (by simp)
    have htrim : Text.trim (c :: gap ++ operands) = operands :=
      (Text.trim_blank_append hblank operands).trans h.trim_eq
    have hne : f.tokens ≠ [] := by
      intro hnil
      rw [hnil] at h
      cases h
    rw [takeWhile_word hword hrest, dropWhile_word hword hrest, htrim]
    exact ⟨hname, .inr ⟨hne, h⟩⟩

theorem ofText?_of_written (h : f.Written t) : Operation.ofText? s t = some (f.operation s) := by
  obtain ⟨hname, hrest⟩ := h.cut
  rw [Operation.ofText?, hname, Kind.named?_name]
  rcases hrest with ⟨hbare, hnil⟩ | ⟨-, hlisted⟩
  · have hform : f = .syscall := by
      cases f with
      | syscall => rfl
      | _ => cases hbare
    rw [hform, hnil]
    rfl
  · cases hrest : t.dropWhile fun c => !Text.isBlank c with
    | nil =>
      rw [hrest] at hlisted
      exact absurd rfl hlisted.ne_nil
    | cons c rest =>
      rw [hrest] at hlisted
      exact withOperands?_of_listed hlisted

theorem Written.of_rest {name rest : Text} {c : Char} (hname : Text.lower name = f.kind.name)
    (hc : Text.isBlank c = true) (h : Listed f.tokens (Text.trim rest)) :
    f.Written (Text.trim (name ++ c :: rest)) := by
  obtain ⟨left, right, hleft, hright, hpad⟩ := Text.exists_pad rest
  have hblank : ∀ d ∈ c :: left, Text.isBlank d = true := List.forall_mem_cons.mpr ⟨hc, hleft⟩
  have hwritten := Written.full hname (by simp) hblank h
  have hwhole : name ++ c :: rest = name ++ (c :: left ++ Text.trim rest) ++ right := by
    conv_lhs => rw [← hpad]
    simp
  rw [hwhole, Text.trim_append_blank hright, hwritten.trim_eq]
  exact hwritten

theorem written_of_ofText? {o : Operation} (h : Operation.ofText? s t = some o)
    (htrim : Text.trim t = t) : ∃ f : Form, f.Written t := by
  obtain ⟨k, hk, ho⟩ := Option.bind_eq_some_iff.mp h
  have hname := (Kind.name_of_named? hk).symm
  have hline : t.takeWhile (fun c => !Text.isBlank c) ++ t.dropWhile (fun c => !Text.isBlank c) = t :=
    List.takeWhile_append_dropWhile
  have hhead := List.head?_dropWhile_not (fun c => !Text.isBlank c) t
  generalize t.takeWhile (fun c => !Text.isBlank c) = name at hname hline
  cases hrest : t.dropWhile fun c => !Text.isBlank c with
  | nil =>
    rw [hrest] at ho hline
    have hsyscall : k = .syscall := by
      cases k with
      | syscall => rfl
      | _ => cases ho
    subst hsyscall
    rw [← hline, List.append_nil]
    exact ⟨.syscall, .bare hname rfl⟩
  | cons c rest =>
    rw [hrest] at ho hline hhead
    have hc : Text.isBlank c = true := by simpa using hhead
    obtain ⟨f, rfl, hlisted⟩ := listed_of_withOperands? ho (Text.trim_trim _)
    rw [Text.trim_cons_blank hc] at hlisted
    have hwritten := Written.of_rest hname hc hlisted
    rw [hline, htrim] at hwritten
    exact ⟨f, hwritten⟩

end Form

section Decoding
variable {s : Symbols} {line : Text}

theorem decode_of_written {f : Form} (h : f.Written (Text.trim line)) :
    Instruction.decode s line = ⟨Text.trim line, f.operation s⟩ := by
  show Instruction.mk (Text.trim line) _ = _
  rw [Form.ofText?_of_written h]
  rfl

theorem decode_form {f : Form} (h : f.Written line) :
    Instruction.decode s line = ⟨line, f.operation s⟩ := by
  have htrim := h.trim_eq
  have hwritten : f.Written (Text.trim line) := htrim.symm ▸ h
  rw [decode_of_written hwritten, htrim]

theorem decode_of_not_written (h : ∀ f : Form, ¬ f.Written (Text.trim line)) :
    Instruction.decode s line = ⟨Text.trim line, .defective (.form (Text.trim line))⟩ := by
  have hnone : Operation.ofText? s (Text.trim line) = none := by
    apply Option.eq_none_iff_forall_ne_some.mpr
    intro o ho
    obtain ⟨f, hf⟩ := Form.written_of_ofText? ho (Text.trim_trim line)
    exact h f hf
  show Instruction.mk (Text.trim line) _ = _
  rw [hnone]
  rfl

end Decoding

/-- The grammar of decoding. Exactly the lines that are written in a form are
supported. Such a line is invalid if its operand denotes nothing, and it has
the fields that its form denotes. Any other line has a message only. -/
theorem decode_grammar (s : Symbols) (line : Text) :
    let t := Text.trim line
    let i := Instruction.decode s line
    i.text = t ∧ (i.operation.kind ≠ .unsupported ↔ ∃ f : Form, f.Written t) ∧
      (∀ f : Form, f.Written t →
        (i.operation.kind = .invalid ↔ f.Rejected s) ∧ f.Denotes s i.fields) ∧
      ((∀ f : Form, ¬ f.Written t) →
        i.fields = { kind := .unsupported, error := ofString "Unsupported instruction: " ++ t }) := by
  intro t i
  have hdenotes : ∀ f : Form, f.Written t → f.Denotes s i.fields := by
    intro f hf
    have hi : i = ⟨t, f.operation s⟩ := decode_of_written hf
    rw [hi]
    exact f.operation_denotes s t
  have hunsupported : (∀ f : Form, ¬ f.Written t) →
      i.fields = { kind := .unsupported, error := ofString "Unsupported instruction: " ++ t } := by
    intro hnone
    have hi : i = ⟨t, .defective (.form t)⟩ := decode_of_not_written hnone
    rw [hi]
    rfl
  have hsupported : i.operation.kind ≠ .unsupported ↔ ∃ f : Form, f.Written t := by
    constructor
    · intro hkind
      by_contra hnone
      exact hkind (congrArg Fields.kind (hunsupported (not_exists.mp hnone)))
    · rintro ⟨f, hf⟩
      exact (hdenotes f hf).kind_ne_unsupported
  have hwritten : ∀ f : Form, f.Written t →
      (i.operation.kind = .invalid ↔ f.Rejected s) ∧ f.Denotes s i.fields := by
    intro f hf
    exact ⟨(hdenotes f hf).kind_eq_invalid_iff, hdenotes f hf⟩
  exact ⟨rfl, hsupported, hwritten, hunsupported⟩

/-- A line of the form `lw` whose operand is no address. -/
example : (Instruction.decode {} (ofString " LW\t$t0 ,a, b")).fields =
    { kind := .invalid, error := ofString "Invalid memory operand: a, b" } := by
  decide +kernel

end MipsStepper
