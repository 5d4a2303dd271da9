import Mathlib.Data.List.Basic
import Mathlib.Data.List.Induction
import Mathlib.Data.List.TakeWhile
import Mathlib.Tactic.SplitIfs
import MipsStepper.Assembly.Load

/-!
# Text labels of a source

Which lines define a text label is said of the source alone: a line defines
the label it starts with, and it is a text label if the lines before leave
the text segment open. The draft agrees with this, line by line, and gives a
label the number of instruction lines before its definition.
-/

set_option autoImplicit false

namespace MipsStepper
open Text (ofString)

namespace Operand
variable {c : Char} {t : Text}

theorem isLabelChar_not_blank (h : isLabelChar c = true) : Text.isBlank c = false :=
  Text.not_blank_of_class isLabelChar (by decide) h

theorem isLabelChar_of_start (h : isLabelStart c = true) : isLabelChar c = true := by
  simp only [isLabelStart, Bool.or_eq_true, decide_eq_true_eq] at h
  simp only [isLabelChar, Text.isWordChar, Char.isAlphanum, Bool.or_eq_true, decide_eq_true_eq]
  rcases h with ((hletter | hunderscore) | hdot) | hdollar
  · exact .inl (.inl (.inl (.inl hletter)))
  · exact .inl (.inl (.inr hunderscore))
  · exact .inl (.inr hdot)
  · exact .inr hdollar

theorem isLabelChar_of_mem (h : isLabel t = true) (hc : c ∈ t) : isLabelChar c = true := by
  cases t with
  | nil => cases h
  | cons d t =>
    rw [isLabel, Bool.and_eq_true, List.all_eq_true] at h
    rcases List.mem_cons.mp hc with rfl | hc
    · exact isLabelChar_of_start h.1
    · exact h.2 c hc

end Operand

namespace Draft

/-- The lines that are neither blank nor a segment switch nor a global
declaration. -/
def Plain (line : Text) : Prop :=
  line ≠ [] ∧ line ≠ ofString ".text" ∧ line ≠ ofString ".data" ∧ isGlobal line = false

instance (line : Text) : Decidable (Plain line) :=
  inferInstanceAs (Decidable (_ ∧ _ ∧ _ ∧ _))

def segmentAfter (s : Segment) (raw : Text) : Segment :=
  if strip raw = ofString ".text" then .text
  else if strip raw = ofString ".data" then .data
  else s

def definedLabel? (raw : Text) : Option Text :=
  if Plain (strip raw) then (labelled? (strip raw)).map Prod.fst else none

/-- The line after `before` defines the label while the segment is open. -/
def DefinesAt (segment : Segment) (lines : List Text) (label : Text) (before : List Text) : Prop :=
  ∃ raw after, lines = before ++ raw :: after ∧
    before.foldl segmentAfter .text = segment ∧ definedLabel? raw = some label

def LabelIn (segment : Segment) (lines : List Text) (label : Text) : Prop :=
  ∃ before, DefinesAt segment lines label before

def TextLabel (lines : List Text) (label : Text) : Prop := LabelIn .text lines label

def ofLines (lines : List Text) : Draft := lines.foldl read {}

theorem labelled?_eq_some {line label rest : Text} (h : labelled? line = some (label, rest)) :
    ∃ tail, line = label ++ ':' :: tail ∧ rest = Text.trim tail ∧ Operand.isLabel label = true ∧
      ∀ c ∈ label, Operand.isLabelChar c = true := by
  unfold labelled? at h
  split at h
  · rename_i tail htail
    dsimp only at h
    split_ifs at h with hname
    cases h
    refine ⟨tail, ?_, rfl, hname, fun c => List.mem_takeWhile_imp⟩
    rw [← htail, List.takeWhile_append_dropWhile]
  · cases h

theorem isLabel_of_definedLabel? {raw label : Text} (h : definedLabel? raw = some label) :
    Operand.isLabel label = true := by
  unfold definedLabel? at h
  split_ifs at h
  obtain ⟨⟨name, rest⟩, hlabelled, rfl⟩ := Option.map_eq_some_iff.mp h
  obtain ⟨-, -, -, hname, -⟩ := labelled?_eq_some hlabelled
  exact hname

theorem ofLines_append (before after : List Text) :
    ofLines (before ++ after) = after.foldl read (ofLines before) := by
  simp [ofLines]

theorem ofLines_concat (lines : List Text) (raw : Text) :
    ofLines (lines ++ [raw]) = (ofLines lines).read raw := by
  simp [ofLines]

theorem read_plain (d : Draft) {raw : Text} (h : Plain (strip raw)) :
    d.read raw = d.content (strip raw) := by
  obtain ⟨hblank, htext, hdata, hglobal⟩ := h
  simp [read, hblank, htext, hdata, hglobal]

theorem read_code (d : Draft) {raw : Text} (hseg : d.segment = .text) (h : Plain (strip raw))
    (hl : labelled? (strip raw) = none) : d.read raw = { d with lines := d.lines ++ [strip raw] } := by
  rw [read_plain d h, content, hl]
  simp [place, hseg]

theorem foldl_read_code {code : List Text} (hcode : ∀ line ∈ code, Plain (strip line) ∧
    labelled? (strip line) = none) (d : Draft) (hseg : d.segment = .text) :
    code.foldl read d = { d with lines := d.lines ++ code.map strip } := by
  induction code generalizing d with
  | nil => simp
  | cons line code ih =>
    obtain ⟨hplain, hlabel⟩ := hcode line (by simp)
    have hrest := ih (fun l hl => hcode l (by simp [hl]))
      { d with lines := d.lines ++ [strip line] } hseg
    rw [List.foldl_cons, read_code d hseg hplain hlabel, hrest]
    simp

theorem nil_ne_ofString {w : String} (h : w.toList ≠ []) : [] ≠ ofString w := by
  rw [Text.ofString_eq]
  exact h.symm

theorem read_not_plain (d : Draft) {raw : Text} (h : ¬ Plain (strip raw)) :
    d.read raw = { d with segment := segmentAfter d.segment raw } := by
  unfold read segmentAfter
  by_cases hblank : strip raw = []
  · have htext : [] ≠ ofString ".text" := nil_ne_ofString (by decide)
    have hdata : [] ≠ ofString ".data" := nil_ne_ofString (by decide)
    simp only [hblank, htext, hdata, if_true, if_false]
  · by_cases htext : strip raw = ofString ".text"
    · simp only [if_neg hblank, if_pos htext]
    · by_cases hdata : strip raw = ofString ".data"
      · simp only [if_neg hblank, if_neg htext, if_pos hdata]
      · have hglobal : isGlobal (strip raw) = true := by
          simpa [Plain, hblank, htext, hdata] using h
        simp only [hblank, htext, hdata, hglobal, if_true, if_false]

theorem place_eq (d : Draft) (line : Text) :
    ∃ added strings cursor, d.place line =
      { d with lines := d.lines ++ added, strings := strings, cursor := cursor } := by
  unfold place
  split
  · exact ⟨[line], d.strings, d.cursor, rfl⟩
  · cases Directive.ofText? line with
    | none => exact ⟨[], d.strings, d.cursor, by simp⟩
    | some directive =>
      cases directive with
      | asciiz payload =>
        refine ⟨[], d.strings.insert d.cursor payload, (d.store (.asciiz payload)).cursor, ?_⟩
        rw [List.append_nil]
        rfl
      | word count =>
        refine ⟨[], d.strings, (d.store (.word count)).cursor, ?_⟩
        rw [List.append_nil]
        rfl

theorem place_symbols (d : Draft) (line : Text) : (d.place line).symbols = d.symbols := by
  obtain ⟨added, strings, cursor, h⟩ := place_eq d line
  rw [h]

theorem place_segment (d : Draft) (line : Text) : (d.place line).segment = d.segment := by
  obtain ⟨added, strings, cursor, h⟩ := place_eq d line
  rw [h]

theorem lines_place_le (d : Draft) (line : Text) :
    d.lines.length ≤ (d.place line).lines.length := by
  obtain ⟨added, strings, cursor, h⟩ := place_eq d line
  simp [h]

theorem define_segment (d : Draft) (label : Text) : (d.define label).segment = d.segment := by
  unfold define
  split <;> rfl

theorem define_lines (d : Draft) (label : Text) : (d.define label).lines = d.lines := by
  unfold define
  split <;> rfl

theorem index?_define (d : Draft) (label l : Text) :
    (d.define label).symbols.index? l =
      if d.segment = .text ∧ label = l then some (d.lines.length : Int)
      else d.symbols.index? l := by
  unfold define
  cases hs : d.segment with
  | text => simp [Symbols.index?_defineLabel]
  | data => simp [Symbols.index?, Symbols.defineDataLabel]

theorem content_segment (d : Draft) (line : Text) : (d.content line).segment = d.segment := by
  unfold content
  split
  · exact define_segment d _
  · rw [place_segment, define_segment]
  · exact place_segment d line

theorem lines_content_le (d : Draft) (line : Text) :
    d.lines.length ≤ (d.content line).lines.length := by
  unfold content
  split
  · simp [define_lines]
  · rename_i label rest _ _
    have h := lines_place_le (d.define label) rest
    rwa [define_lines] at h
  · exact lines_place_le d line

theorem index?_content (d : Draft) (line l : Text) :
    (d.content line).symbols.index? l =
      if d.segment = .text ∧ (labelled? line).map Prod.fst = some l then some (d.lines.length : Int)
      else d.symbols.index? l := by
  unfold content
  split
  · simp [index?_define, *]
  · simp [place_symbols, index?_define, *]
  · simp [place_symbols, *]

theorem read_segment (d : Draft) (raw : Text) :
    (d.read raw).segment = segmentAfter d.segment raw := by
  by_cases h : Plain (strip raw)
  · rw [read_plain d h, content_segment, segmentAfter, if_neg h.2.1, if_neg h.2.2.1]
  · rw [read_not_plain d h]

theorem lines_read_le (d : Draft) (raw : Text) :
    d.lines.length ≤ (d.read raw).lines.length := by
  by_cases h : Plain (strip raw)
  · rw [read_plain d h]
    exact lines_content_le d _
  · simp [read_not_plain d h]

/-- What one line does to the text labels. A definition stands until the
next one of the same label. -/
theorem index?_read (d : Draft) (raw l : Text) :
    (d.read raw).symbols.index? l =
      if d.segment = .text ∧ definedLabel? raw = some l then some (d.lines.length : Int)
      else d.symbols.index? l := by
  by_cases h : Plain (strip raw)
  · simp only [read_plain d h, index?_content, definedLabel?, h, if_true]
  · simp [read_not_plain d h, definedLabel?, h]

theorem ofLines_segment (lines : List Text) :
    (ofLines lines).segment = lines.foldl segmentAfter .text := by
  -- A draft is folded from the left, so lines are taken off the end.
  induction lines using List.reverseRecOn with
  | nil => rfl
  | append_singleton lines raw ih =>
    rw [ofLines_concat, read_segment, ih, List.foldl_append]
    rfl

theorem index?_ofLines_range {lines : List Text} {l : Text} {i : Int}
    (h : (ofLines lines).symbols.index? l = some i) :
    0 ≤ i ∧ i ≤ (ofLines lines).lines.length := by
  induction lines using List.reverseRecOn with
  | nil => simp [ofLines, Symbols.index?] at h
  | append_singleton lines raw ih =>
    rw [ofLines_concat] at h ⊢
    have hle := lines_read_le (ofLines lines) raw
    rw [index?_read] at h
    split_ifs at h with hdef
    · cases h
      omega
    · have hi := ih h
      omega

theorem definesAt_concat (segment : Segment) (lines : List Text) (raw l : Text)
    (before : List Text) :
    DefinesAt segment (lines ++ [raw]) l before ↔ DefinesAt segment lines l before ∨
      before = lines ∧ lines.foldl segmentAfter .text = segment ∧ definedLabel? raw = some l := by
  constructor
  · rintro ⟨line, after, hsplit, hseg, hdef⟩
    rcases List.eq_nil_or_concat' after with rfl | ⟨after', last, rfl⟩
    · obtain ⟨rfl, hline⟩ := List.append_inj' hsplit rfl
      cases hline
      exact .inr ⟨rfl, hseg, hdef⟩
    · rw [← List.cons_append, ← List.append_assoc] at hsplit
      obtain ⟨rfl, _⟩ := List.append_inj' hsplit rfl
      exact .inl ⟨line, after', rfl, hseg, hdef⟩
  · rintro (⟨line, after, rfl, hseg, hdef⟩ | ⟨rfl, hseg, hdef⟩)
    · exact ⟨line, after ++ [raw], by simp, hseg, hdef⟩
    · exact ⟨raw, [], rfl, hseg, hdef⟩

theorem labelIn_concat (segment : Segment) (lines : List Text) (raw l : Text) :
    LabelIn segment (lines ++ [raw]) l ↔ LabelIn segment lines l ∨
      lines.foldl segmentAfter .text = segment ∧ definedLabel? raw = some l := by
  simp only [LabelIn, definesAt_concat, exists_or, exists_eq_left]

theorem index?_ofLines_eq_none_iff (lines : List Text) (l : Text) :
    (ofLines lines).symbols.index? l = none ↔ ¬ TextLabel lines l := by
  induction lines using List.reverseRecOn with
  | nil => simp [ofLines, Symbols.index?, TextLabel, LabelIn, DefinesAt]
  | append_singleton lines raw ih =>
    rw [ofLines_concat, index?_read, TextLabel, labelIn_concat, ofLines_segment, not_or,
      ← TextLabel, ← ih]
    split_ifs with hdef
    · simp [hdef]
    · simp [hdef]

end Draft

end MipsStepper
