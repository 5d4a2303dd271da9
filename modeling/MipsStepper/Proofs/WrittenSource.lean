import MipsStepper.Proofs.Grammar
import MipsStepper.Proofs.Storage
import MipsStepper.Proofs.Targets

/-!
# Sources of written lines

A line is written in one form at most. It has no label and is no directive, so
a source of such lines alone loads to one instruction for each line, with no
symbols, in the order of the lines.
-/

set_option autoImplicit false

namespace MipsStepper
open Text (ofString)

def Kind.operandClasses : Kind → List Token
  | .li => [.register, .immediate]
  | .la => [.register, .label]
  | .move => [.register, .register]
  | .addi => [.register, .register, .immediate]
  | .add => [.register, .register, .register]
  | .sub => [.register, .register, .register]
  | .lw => [.register, .address]
  | .sw => [.register, .address]
  | .beq => [.register, .register, .label]
  | .bne => [.register, .register, .label]
  | .j => [.label]
  | _ => []

namespace Form
variable {f f' : Form} {t : Text}

def ofKind? : Kind → List Text → Option Form
  | .li, [d, v] => some (.li d v)
  | .la, [d, l] => some (.la d l)
  | .move, [d, r] => some (.move d r)
  | .addi, [d, r, v] => some (.addi d r v)
  | .add, [d, r, t] => some (.arith .add d r t)
  | .sub, [d, r, t] => some (.arith .sub d r t)
  | .lw, [d, x] => some (.lw d x)
  | .sw, [r, x] => some (.sw r x)
  | .beq, [r, t, l] => some (.branch .equal r t l)
  | .bne, [r, t, l] => some (.branch .different r t l)
  | .j, [l] => some (.jump l)
  | .syscall, [] => some .syscall
  | _, _ => none

theorem tokens_classes (f : Form) : f.tokens.map Prod.fst = f.kind.operandClasses := by
  cases f with
  | arith op => cases op <;> rfl
  | branch c => cases c <;> rfl
  | _ => rfl

theorem ofKind?_tokens (f : Form) : ofKind? f.kind (f.tokens.map Prod.snd) = some f := by
  cases f with
  | arith op => cases op <;> rfl
  | branch c => cases c <;> rfl
  | _ => rfl

theorem Written.unique (h : f.Written t) (h' : f'.Written t) : f = f' := by
  obtain ⟨hname, hrest⟩ := h.cut
  obtain ⟨hname', hrest'⟩ := h'.cut
  have hkind : f.kind = f'.kind := by
    have hnames := congrArg Kind.named? (hname.symm.trans hname')
    rw [Kind.named?_name, Kind.named?_name] at hnames
    exact Option.some.inj hnames
  have hclasses : f.tokens.map Prod.fst = f'.tokens.map Prod.fst := by
    rw [tokens_classes, tokens_classes, hkind]
  have htokens : f.tokens = f'.tokens := by
    rcases hrest with ⟨hbare, -⟩ | ⟨-, hlisted⟩
    · rw [hbare, List.map_nil] at hclasses
      rw [hbare, List.map_eq_nil_iff.mp hclasses.symm]
    · rcases hrest' with ⟨hbare', -⟩ | ⟨-, hlisted'⟩
      · rw [hbare', List.map_nil] at hclasses
        rw [hbare', List.map_eq_nil_iff.mp hclasses]
      · exact hlisted.unique hlisted' hclasses
  have hform := f.ofKind?_tokens
  rw [hkind, htokens, ofKind?_tokens] at hform
  exact (Option.some.inj hform).symm

theorem Written.toLower_mem (h : f.Written t) {c : Char}
    (hc : c ∈ t.takeWhile fun d => !Text.isBlank d) : c.toLower ∈ f.kind.name := by
  rw [← h.cut.1]
  exact List.mem_map_of_mem hc

theorem not_mem_name (f : Form) : '.' ∉ f.kind.name ∧ ':' ∉ f.kind.name := by
  have hall : ∀ k ∈ Kind.all, '.' ∉ k.name ∧ ':' ∉ k.name := by decide +kernel
  apply hall
  cases f.kind <;> decide

theorem Written.exists_head (h : f.Written t) : ∃ c rest, t = c :: rest ∧ c.toLower ≠ '.' := by
  have hword : (t.takeWhile fun c => !Text.isBlank c) ≠ [] := Kind.ne_nil_of_lower h.cut.1
  obtain ⟨c, word, hc⟩ := List.exists_cons_of_ne_nil hword
  obtain ⟨rest, ht⟩ := List.takeWhile_prefix (l := t) fun c => !Text.isBlank c
  refine ⟨c, word ++ rest, ?_, fun hdot => f.not_mem_name.1 ?_⟩
  · rw [← ht, hc]
    rfl
  · rw [← hdot]
    exact h.toLower_mem (hc ▸ List.mem_cons_self)

theorem Written.plain (h : f.Written t) : Draft.Plain t := by
  obtain ⟨c, rest, rfl, hdot⟩ := h.exists_head
  have hne : ∀ w : String, w.toList.head? = some '.' → c :: rest ≠ ofString w := by
    intro w hw heq
    rw [Text.ofString_eq] at heq
    rw [← heq] at hw
    cases hw
    exact hdot rfl
  refine ⟨List.cons_ne_nil c rest, hne _ rfl, hne _ rfl, ?_⟩
  by_contra hglobal
  rw [Bool.not_eq_false, Draft.isGlobal, Bool.and_eq_true] at hglobal
  have hfront := Text.startsWith_take hglobal.1 1
  rw [show min 1 (ofString ".globl").length = 1 by decide +kernel,
    show (ofString ".globl").take 1 = ['.'] by decide +kernel] at hfront
  exact hdot (List.cons.inj hfront).1

theorem Written.unlabelled (h : f.Written t) : Draft.labelled? t = none := by
  by_contra hsome
  obtain ⟨⟨label, rest⟩, hlabel⟩ := Option.ne_none_iff_exists'.mp hsome
  obtain ⟨tail, rfl, -, -, hchars⟩ := Draft.labelled?_eq_some hlabel
  have hsolid : ∀ c ∈ label, (!Text.isBlank c) = true := by
    intro c hc
    rw [Operand.isLabelChar_not_blank (hchars c hc)]
    rfl
  apply f.not_mem_name.2
  apply h.toLower_mem (c := ':')
  rw [List.takeWhile_append_of_pos hsolid]
  simp [Text.isBlank]

end Form

section Loading
variable {source : Text}

theorem Draft.read_nil (d : Draft) : d.read [] = d := by
  simp [Draft.read, Draft.strip, Text.trim, Text.trimRight]

/-- The piece behind the last newline is a line only if it is not empty, and
to read it is all one if it is. -/
theorem Draft.ofSource_eq (source : Text) : Draft.ofSource source = ofLines (Text.lines source) := by
  unfold Draft.ofSource Text.lines
  dsimp only
  split
  · rename_i hlast
    obtain ⟨pieces, hpieces⟩ := List.getLast?_eq_some_iff.mp hlast
    rw [hpieces, List.dropLast_concat, List.foldl_append, List.foldl_cons, List.foldl_nil,
      read_nil]
    rfl
  · rfl

theorem load_written (hlines : Text.lines source ≠ []) (hhash : ∀ line ∈ Text.lines source, '#' ∉ line)
    (hwritten : ∀ line ∈ Text.lines source, ∃ f : Form, f.Written (Text.trim line)) :
    load source = .ok { instructions := (Text.lines source).map (Instruction.decode {}) } := by
  have hstrip : ∀ line ∈ Text.lines source, Draft.strip line = Text.trim line :=
    fun line hline => Draft.strip_of_not_mem (hhash line hline)
  have hcode : ∀ line ∈ Text.lines source,
      Draft.Plain (Draft.strip line) ∧ Draft.labelled? (Draft.strip line) = none := by
    intro line hline
    obtain ⟨f, hf⟩ := hwritten line hline
    rw [hstrip line hline]
    exact ⟨hf.plain, hf.unlabelled⟩
  have hdraft : Draft.ofSource source = { lines := (Text.lines source).map Text.trim } := by
    rw [Draft.ofSource_eq, Draft.ofLines, Draft.foldl_read_code hcode {} rfl,
      List.map_congr_left hstrip]
    rfl
  rw [load, hdraft]
  simp [hlines, Draft.program, Function.comp_def, Instruction.decode_trim]

end Loading

end MipsStepper
