import MipsStepper.Proofs.Storage
import MipsStepper.Proofs.StraightLine
import MipsStepper.Proofs.Targets

/-!
# String literals

A text that can be the value of a literal, written with its escapes between
quotes, is loaded as that text and printed as that text. The texts that can be
values are exactly those without a comment sign and without a backslash before
the letter `n`: no payload of a loaded source is any other text.
-/

set_option autoImplicit false

namespace MipsStepper
open Text (ofString)

def literal (t : Text) : Text := ofString ".asciiz \"" ++ Directive.escape t ++ ['"']

def literalLine (t : Text) : Text := ofString "x: " ++ literal t

def printLines : List Text :=
  [ofString "li $v0,4", ofString "la $a0,x", ofString "syscall", ofString "li $v0,10",
    ofString "syscall"]

def literalLines (t : Text) : List Text :=
  ofString ".data" :: literalLine t :: ofString ".text" :: printLines

def literalSource (t : Text) : Text := ['\n'].intercalate (literalLines t)

theorem literalLine_eq (t : Text) : literalLine t = 'x' :: ':' :: ' ' :: literal t := by
  simp [literalLine, Text.ofString_eq]

theorem hash_not_mem_literalLine {t : Text} (h : '#' ∉ t) : '#' ∉ literalLine t := by
  have hescape : '#' ∉ Directive.escape t := by
    intro hmem
    rcases (Directive.mem_escape hmem).2 with ht | hc | hc
    · exact h ht
    · cases hc
    · cases hc
  simp [literalLine, literal, Text.ofString_eq, hescape]

theorem newline_not_mem_literalLine (t : Text) : '\n' ∉ literalLine t := by
  have hescape : '\n' ∉ Directive.escape t := fun hmem => (Directive.mem_escape hmem).1 rfl
  simp [literalLine, literal, Text.ofString_eq, hescape]

theorem splitOn_literalSource (t : Text) : (literalSource t).splitOn '\n' = literalLines t := by
  have hcode : ∀ line ∈ printLines, '\n' ∉ line := by decide +kernel
  apply List.splitOn_intercalate
  · intro line hline
    simp only [literalLines, List.mem_cons] at hline
    rcases hline with rfl | rfl | rfl | hline
    · decide +kernel
    · exact newline_not_mem_literalLine t
    · decide +kernel
    · exact hcode line hline
  · simp [literalLines]

theorem trim_literal (t : Text) : Text.trim (literal t) = literal t := by
  apply Text.trim_eq_self
  · simp [literal, Text.ofString_eq, Text.isBlank]
  · simp [literal, Text.isBlank]

theorem strip_literalLine {t : Text} (h : '#' ∉ t) :
    Draft.strip (literalLine t) = literalLine t := by
  rw [Draft.strip_of_not_mem (hash_not_mem_literalLine h)]
  apply Text.trim_eq_self
  · simp [literalLine_eq, Text.isBlank]
  · simp [literalLine, literal, Text.isBlank]

theorem labelled?_literalLine (t : Text) :
    Draft.labelled? (literalLine t) = some (ofString "x", literal t) := by
  have hx : Operand.isLabelChar 'x' = true := by decide
  have hcolon : Operand.isLabelChar ':' = false := by decide
  have hlabel : Operand.isLabel ['x'] = true := by decide
  have hblank : Text.trim (' ' :: literal t) = Text.trim (literal t) := by
    simp [Text.trim, Text.isBlank]
  have htrim := hblank.trans (trim_literal t)
  rw [literalLine_eq, Draft.labelled?]
  simp [hx, hcolon, hlabel, htrim, Text.ofString_eq]

theorem plain_literalLine (t : Text) : Draft.Plain (literalLine t) := by
  rw [literalLine_eq]
  refine ⟨?_, ?_, ?_, ?_⟩
  all_goals simp [Text.ofString_eq, Draft.isGlobal, Text.startsWith, Text.lower]

theorem payload?_literal {t : Text} (h : ¬ Directive.HasNewlineEscape t) :
    Directive.payload? (literal t) = some t := by
  have hargument : Directive.argument? (ofString ".asciiz") (literal t) =
      some ('"' :: (Directive.escape t ++ ['"'])) := by
    simp [literal, Directive.argument?, Text.ofString_eq, Text.startsWith, Text.lower, Text.isBlank]
  have hquoted : Directive.quoted? ('"' :: (Directive.escape t ++ ['"'])) =
      some (Directive.escape t) := by
    simp [Directive.quoted?]
  rw [Directive.payload?, hargument, Option.bind_some, hquoted, Option.map_some,
    Directive.unescape_escape h]

def literalSymbols : Symbols := ({} : Symbols).defineDataLabel (ofString "x") dataBase

theorem read_literalLine {t : Text} (h : Directive.Representable t) :
    ({ segment := .data } : Draft).read (literalLine t) =
      ({ segment := .data, symbols := literalSymbols } : Draft).store (.asciiz t) := by
  have hplain := plain_literalLine t
  have hofText : Directive.ofText? (literal t) = some (.asciiz t) := by
    simp [Directive.ofText?, payload?_literal h.2]
  rw [← strip_literalLine h.1] at hplain
  rw [Draft.read_plain _ hplain, strip_literalLine h.1, Draft.content_data _ rfl, Draft.body,
    Draft.defineFront, labelled?_literalLine]
  simp only [hofText, Option.elim_some]
  rfl

theorem ofLines_literal {t : Text} (h : Directive.Representable t) :
    ∃ cursor, Draft.ofLines (literalLines t) =
      { lines := printLines
        symbols := literalSymbols
        strings := (∅ : Std.ExtTreeMap Word Text compare).insert dataBase t
        cursor := cursor } := by
  have hdata : ({} : Draft).read (ofString ".data") = { segment := .data } := by
    rw [Draft.read_not_plain _ (by decide +kernel)]
    have hseg : Draft.segmentAfter .text (ofString ".data") = .data := by decide +kernel
    rw [hseg]
  have htext : ∀ d : Draft, d.read (ofString ".text") = { d with segment := .text } := by
    intro d
    rw [Draft.read_not_plain _ (by decide +kernel)]
    have hseg : Draft.segmentAfter d.segment (ofString ".text") = .text := by
      cases d.segment <;> decide +kernel
    rw [hseg]
  have hcode : printLines.map Draft.strip = printLines := by decide +kernel
  rw [Draft.ofLines, literalLines, List.foldl_cons, hdata, List.foldl_cons, read_literalLine h,
    List.foldl_cons, htext, Draft.foldl_read_code (by decide +kernel) _ rfl, hcode]
  exact ⟨_, rfl⟩

def printOperations : List Operation :=
  [.li (some Register.v0) 4, .la (some Register.a0) dataBase, .syscall,
    .li (some Register.v0) 10, .syscall]

theorem decode_printLines :
    (printLines.map (Instruction.decode literalSymbols)).map Instruction.operation =
      printOperations := by
  decide +kernel

namespace Machine

section Straight
variable {m : Machine} {p : Program} {k : Nat} {output : Text}

theorem Before.print (h : m.Before p k output)
    (ho : (p.instructions.map Instruction.operation)[k]? = some .syscall) (hk : k < 10000)
    (hv : m.value (some Register.v0) = 4) {t : Text}
    (ht : p.string? (m.value (some Register.a0)) = some t) :
    m.step.Before p (k + 1) (output ++ t) := by
  have hv' : m.countStep.value (some Register.v0) = 4 := hv
  have ht' : m.countStep.program.string? (m.countStep.value (some Register.a0)) = some t := by
    rw [← ht, ← h.program]
    rfl
  have hstep : m.step = (m.countStep.print t).advance := by
    rw [h.step_eq ho hk]
    simp [execute, systemCall, hv', Service.ofCode?, serve, serveWith, ht']
  rw [hstep]
  refine ⟨h.status, h.program, ?_, ?_, ?_⟩
  · simp [advance, goTo, Machine.print, countStep, h.pc]
  · simp [advance, goTo, Machine.print, countStep, h.steps]
  · simp [advance, goTo, Machine.print, countStep, h.output]

theorem Before.exit (h : m.Before p k output)
    (ho : (p.instructions.map Instruction.operation)[k]? = some .syscall) (hk : k < 10000)
    (hv : m.value (some Register.v0) = 10) :
    m.step.status = .halted ∧ m.step.output = output := by
  have hv' : m.countStep.value (some Register.v0) = 10 := hv
  have hstep : m.step = m.countStep.halt := by
    rw [h.step_eq ho hk]
    simp [execute, systemCall, hv', Service.ofCode?, serve, serveWith]
  rw [hstep]
  exact ⟨rfl, h.output⟩

end Straight

/-- The five steps of the code, from any registers: each register is set
before it is read. -/
theorem run_print {p : Program} {t : Text}
    (hcode : p.instructions.map Instruction.operation = printOperations)
    (ht : p.string? dataBase = some t) (source : Text) (o : Overrides) :
    (start p source o).run.status = .halted ∧ (start p source o).run.output = t := by
  have hop : ∀ k : Nat, (p.instructions.map Instruction.operation)[k]? = printOperations[k]? :=
    fun k => by rw [hcode]
  have hv0 : Register.v0 ≠ Register.zero := by decide
  have ha0 : Register.a0 ≠ Register.zero := by decide
  have hne : Register.v0 ≠ Register.a0 := by decide
  have h0 : (start p source o).Before p 0 [] := ⟨rfl, rfl, rfl, rfl, rfl⟩
  obtain ⟨h1, hservice, _⟩ := h0.assign (hop 0) (by omega) hv0 rfl
  obtain ⟨h2, haddress, hkeep⟩ := h1.assign (hop 1) (by omega) ha0 rfl
  rw [← hkeep _ hne] at hservice
  have h3 := h2.print (hop 2) (by omega) hservice (haddress ▸ ht)
  obtain ⟨h4, hexit, _⟩ := h3.assign (hop 3) (by omega) hv0 rfl
  obtain ⟨hstatus, houtput⟩ := h4.exit (hop 4) (by omega) hexit
  have hrun := run_stepN 5 (start p source o)
  rw [run_of_not_ready (by simp [stepN, hstatus])] at hrun
  rw [← hrun]
  exact ⟨hstatus, houtput⟩

end Machine

theorem load_literalSource {t : Text} (h : Directive.Representable t) :
    ∃ p, load (literalSource t) = .ok p ∧ p.instructions.map Instruction.operation = printOperations ∧
      p.string? dataBase = some t := by
  obtain ⟨cursor, hdraft⟩ := ofLines_literal h
  have hlines := congrArg Draft.ofLines (splitOn_literalSource t)
  refine ⟨_, load_of_lines (hlines.trans hdraft) (by simp [printLines]), decode_printLines, ?_⟩
  simp [Draft.program, Program.string?]

theorem load_representable {source : Text} {p : Program} (h : load source = .ok p) {a : Word}
    {t : Text} (ht : p.string? a = some t) : Directive.Representable t := by
  rw [load_eq_ok h] at ht
  obtain ⟨raw, _, hraw⟩ := Draft.string_origin ht
  exact Draft.directive?_representable hraw

/-- The texts that literals can hold: each of them goes through a literal, a
loader and a print unchanged, and no loaded source holds any other text. -/
theorem literal_roundTrip :
    (∀ t, Directive.Representable t → ∀ o : Overrides,
      ∃ p, load (literalSource t) = .ok p ∧ p.string? dataBase = some t ∧
        (Machine.create (literalSource t) o).run.status = .halted ∧
        (Machine.create (literalSource t) o).run.output = t) ∧
    ∀ source p, load source = .ok p → ∀ a t, p.string? a = some t → Directive.Representable t := by
  constructor
  · intro t ht o
    obtain ⟨p, hload, hcode, hstring⟩ := load_literalSource ht
    rw [Machine.create_of_load hload]
    exact ⟨p, hload, hstring, Machine.run_print hcode hstring _ o⟩
  · intro source p hload a t ht
    exact load_representable hload ht

/-- A text with a backslash before a quote, before a newline and at its end,
and with quotes and blanks at its start. -/
theorem literal_roundTrip_backslashes :
    let t := ofString " \"\"\\\"\\\n \\"
    Directive.Representable t ∧ Directive.escape t = ofString " \\\"\\\"\\\\\"\\\\n \\" ∧
      ∃ p, load (literalSource t) = .ok p ∧ p.string? dataBase = some t ∧
        (Machine.create (literalSource t) {}).run.output = t := by
  intro t
  have ht : Directive.Representable t := by decide +kernel
  obtain ⟨p, hload, hstring, _, houtput⟩ := literal_roundTrip.1 t ht {}
  exact ⟨ht, by decide +kernel, p, hload, hstring, houtput⟩

end MipsStepper
