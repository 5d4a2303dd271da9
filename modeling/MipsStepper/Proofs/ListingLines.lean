import MipsStepper.Proofs.LabelNames
import MipsStepper.Proofs.LoadedPrograms
import MipsStepper.Session.View

/-!
# Lines of a listing

A listing line is printed as one line of text, since nothing that it shows of
a loaded program holds a newline: names, operands and messages are cut from
single source lines. The arrow stands before the instruction of the program
counter and nowhere else, for no label begins with it.
-/

set_option autoImplicit false

namespace MipsStepper
open Text (ofString)

namespace Text

def IsLine (t : Text) : Prop := ∃ body, '\n' ∉ body ∧ t = body ++ ['\n']

theorem lines_append_cons {body : Text} (h : '\n' ∉ body) (rest : Text) :
    lines (body ++ '\n' :: rest) = body :: lines rest := by
  have hsplit : (body ++ '\n' :: rest).splitOn '\n' = body :: rest.splitOn '\n' :=
    List.splitOn_append_cons_self_of_not_mem h rest
  obtain ⟨piece, pieces, hpieces⟩ := List.exists_cons_of_ne_nil (List.splitOn_ne_nil '\n' rest)
  unfold lines
  rw [hsplit, hpieces]
  simp only [List.getLast?_cons_cons, List.dropLast_cons_cons]
  split_ifs <;> rfl

theorem lines_flatten {ts : List Text} (h : ∀ t ∈ ts, t.IsLine) :
    (lines ts.flatten).map (· ++ ['\n']) = ts := by
  induction ts with
  | nil => rfl
  | cons t ts ih =>
    obtain ⟨⟨body, hbody, rfl⟩, hts⟩ := List.forall_mem_cons.mp h
    rw [List.flatten_cons, List.append_assoc, List.singleton_append, lines_append_cons hbody,
      List.map_cons, ih hts]

theorem newline_not_mem {t : Text} (h : ∀ c ∈ t, isBlank c = false) : '\n' ∉ t :=
  fun hmem => absurd (h _ hmem) (by decide)

theorem newline_not_mem_intercalate {sep : Text} {ts : List Text} (hsep : '\n' ∉ sep)
    (h : ∀ t ∈ ts, '\n' ∉ t) : '\n' ∉ sep.intercalate ts := by
  induction ts with
  | nil => exact List.not_mem_nil
  | cons t ts ih =>
    obtain ⟨ht, hts⟩ := List.forall_mem_cons.mp h
    cases ts with
    | nil => simpa using ht
    | cons u ts =>
      rw [List.intercalate_cons_cons]
      simp [ht, hsep, ih hts]

end Text

theorem Listed.subset {tokens : List (Token × Text)} {t : Text} (h : Listed tokens t) :
    ∀ token ∈ tokens, token.2 ⊆ t := by
  induction h with
  | last _ => simp
  | more _ _ _ _ _ ih =>
    intro token htoken c hc
    rcases List.mem_cons.mp htoken with rfl | htoken
    · simp [hc]
    · simp [ih token htoken hc]

namespace Form
variable {s : Symbols} {f : Form} {t : Text}

theorem Written.subset (h : f.Written t) : ∀ token ∈ f.tokens, token.2 ⊆ t := by
  cases h with
  | bare _ hbare => simp [hbare]
  | full _ _ _ hlisted =>
    intro token htoken c hc
    simp [hlisted.subset token htoken hc]

theorem Written.newline_not_mem_complaint (h : f.Written t) (ht : '\n' ∉ t) :
    '\n' ∉ f.complaint := by
  have htokens : ∀ token ∈ f.tokens, '\n' ∉ token.2 := fun token htoken hmem =>
    ht (h.subset token htoken hmem)
  cases f <;> simp_all [complaint, tokens, Text.ofString_eq]

theorem Denotes.error_eq {x : Fields} (h : f.Denotes s x) :
    x.error = [] ∨ x.error = f.complaint := by
  cases h with
  | rejected _ => exact .inr rfl
  | _ => exact .inl rfl

end Form

theorem Instruction.newline_not_mem_error (s : Symbols) {line : Text} (h : '\n' ∉ Text.trim line) :
    '\n' ∉ (decode s line).error := by
  by_cases hwritten : ∃ f : Form, f.Written (Text.trim line)
  · obtain ⟨f, hf⟩ := hwritten
    rw [decode_of_written hf]
    generalize hi : Instruction.mk (Text.trim line) (f.operation s) = i
    have herror : i.error = [] ∨ i.error = f.complaint :=
      hi ▸ (f.operation_denotes s (Text.trim line)).error_eq
    rcases herror with herror | herror
    · rw [herror]
      exact List.not_mem_nil
    · rw [herror]
      exact hf.newline_not_mem_complaint h
  · rw [decode_of_not_written (not_exists.mp hwritten)]
    simpa [error, Operation.defect?, Defect.message, Text.ofString_eq] using h

section Operands

theorem Register.newline_not_mem_operandName (r : Option Register) : '\n' ∉ operandName r := by
  cases r with
  | none => decide +kernel
  | some r =>
    revert r
    decide +kernel

theorem newline_not_mem_decimal (i : Int) : '\n' ∉ decimal i :=
  Text.newline_not_mem (Literal.decimal_not_blank i)

theorem Word.newline_not_mem_hex (w : Word) : '\n' ∉ w.hex :=
  Text.newline_not_mem (Literal.hexadecimal_not_blank 8 w.bits)

theorem MemOperand.newline_not_mem_listing (x : MemOperand) : '\n' ∉ x.listing := by
  cases x with
  | based offset base =>
    have hbase := Register.newline_not_mem_operandName (some base)
    simp only [Register.operandName] at hbase
    simp [listing, Word.decimal, newline_not_mem_decimal, hbase]
  | absolute a => exact a.newline_not_mem_hex

theorem Token.Spells.newline_not_mem {name : Text} (h : Token.label.Spells name) : '\n' ∉ name :=
  Text.newline_not_mem fun c hc => ((h.solid (by decide)).2 c hc).2

theorem Operation.newline_not_mem_listing {o : Operation} (h : o.LabelSpelled) :
    '\n' ∉ o.listing := by
  have hname : '\n' ∉ o.kind.name := by
    generalize o.kind = k
    cases k <;> decide +kernel
  have htexts : ∀ t ∈ o.operandTexts, '\n' ∉ t := by
    cases o with
    | branch c rs rt l target =>
      simp [operandTexts, Register.newline_not_mem_operandName, Token.Spells.newline_not_mem h]
    | jump l target => simp [operandTexts, Token.Spells.newline_not_mem h]
    | _ =>
      simp [operandTexts, Register.newline_not_mem_operandName, Word.decimal,
        newline_not_mem_decimal, Word.newline_not_mem_hex, MemOperand.newline_not_mem_listing]
  have hsep : '\n' ∉ ofString ", " := by simp [Text.ofString_eq]
  have hoperands := Text.newline_not_mem_intercalate hsep htexts
  unfold listing
  split
  · exact hname
  · simp_all

end Operands

namespace ListingLine
variable {source : Text} {p : Program}

theorem label_isLine {name : Text} (h : Token.label.Spells name) (pc : Int) :
    ((label name).text pc).IsLine :=
  ⟨name ++ [':'], by simp [h.newline_not_mem], by simp [text, Text.ofString_eq]⟩

theorem instruction_isLine (h : load source = .ok p) {i : Instruction} (hi : i ∈ p.instructions)
    (pc : Int) (index : Nat) : ((instruction index i).text pc).IsLine := by
  obtain ⟨-, htrim, -, htext⟩ := load_text h hi
  have hdecode := load_decode h hi
  have hlisting : '\n' ∉ i.listing := by
    have hlabel := Instruction.decode_labelSpelled p.symbols i.text
    rw [hdecode] at hlabel
    unfold Instruction.listing
    split
    · exact htext
    · exact Operation.newline_not_mem_listing hlabel
  have hnote : '\n' ∉ defectNote i := by
    have herror := Instruction.newline_not_mem_error p.symbols (htrim.symm ▸ htext)
    rw [hdecode] at herror
    unfold defectNote
    split_ifs
    · exact List.not_mem_nil
    · simp [Text.ofString_eq, herror]
  have hmarker : '\n' ∉ marker pc index := by
    unfold marker
    split_ifs <;> simp [Text.ofString_eq]
  refine ⟨marker pc index ++ '[' :: indexText 4 index ++ ofString "] " ++
    Text.padRight 28 i.listing ++ defectNote i, ?_, rfl⟩
  simp [hmarker, hlisting, hnote, indexText, List.leftpad, Text.padRight, Text.ofString_eq,
    newline_not_mem_decimal]

def Marked (t : Text) : Prop := ofString "=>" <+: t

theorem instruction_marked_iff (pc : Int) (index : Nat) (i : Instruction) :
    Marked ((instruction index i).text pc) ↔ (index : Int) = pc := by
  by_cases h : (index : Int) = pc <;> simp [Marked, text, marker, h, Text.ofString_eq]

theorem label_not_marked {name : Text} (h : Token.label.Spells name) (pc : Int) :
    ¬ Marked ((label name).text pc) := by
  obtain ⟨c, rest, rfl, hstart, -⟩ := h
  rw [← Operand.isLabelStart_iff] at hstart
  intro hmarked
  obtain ⟨rfl, -⟩ : '=' = c ∧ ['>'] <+: rest ++ [':', '\n'] := by
    simpa [Marked, text, Text.ofString_eq] using hmarked
  exact absurd hstart (by decide)

end ListingLine

end MipsStepper
