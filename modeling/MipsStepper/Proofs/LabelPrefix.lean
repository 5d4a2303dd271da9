import MipsStepper.Proofs.Insertion
import MipsStepper.Proofs.Segments

/-!
# What follows a label on its line

A label is split off a line once, and what follows it is placed in the open
segment without another look. In the text segment it is an instruction line
whatever it says, in the data segment it is a storage directive or nothing.
So it is read as a line of its own only if it is neither a segment switch nor
a global declaration nor another label.
-/

set_option autoImplicit false

namespace MipsStepper
open Text (ofString)

theorem Text.startsWith_of_mem_take {keyword t : Text} {c : Char} (hc : c.toLower = c)
    (ht : c ∈ t.take keyword.length) (hkeyword : c ∉ keyword) :
    Text.startsWith keyword t = false := by
  rw [Text.startsWith, decide_eq_false_iff_not]
  intro h
  apply hkeyword
  rw [← h, ← hc]
  exact List.mem_map_of_mem ht

namespace Draft

section Labelled
variable {line label rest : Text}

def labelLine (label : Text) : Text := label ++ [':']

theorem labelled?_append (hname : Operand.isLabel label = true) (tail : Text) :
    labelled? (label ++ ':' :: tail) = some (label, Text.trim tail) := by
  have hchars : ∀ c ∈ label, Operand.isLabelChar c = true := fun _ =>
    Operand.isLabelChar_of_mem hname
  have hcolon : Operand.isLabelChar ':' = false := by decide
  have hdrop : (label ++ ':' :: tail).dropWhile Operand.isLabelChar = ':' :: tail := by
    rw [List.dropWhile_append_of_pos hchars, List.dropWhile_cons_of_neg (by simp [hcolon])]
  have htake : (label ++ ':' :: tail).takeWhile Operand.isLabelChar = label := by
    rw [List.takeWhile_append_of_pos hchars, List.takeWhile_cons_of_neg (by simp [hcolon]),
      List.append_nil]
  rw [labelled?, hdrop]
  simp only [htake, hname, if_true]

theorem labelled?_labelLine (h : labelled? line = some (label, rest)) :
    labelled? (labelLine label) = some (label, []) := by
  obtain ⟨-, -, -, hname, -⟩ := labelled?_eq_some h
  exact labelled?_append hname []

/-- The colon decides what the front of a line says before its end is read. -/
theorem isGlobal_labelLine_append (label tail : Text) :
    isGlobal (labelLine label ++ tail) = isGlobal (labelLine label) := by
  have hkeyword : (ofString ".globl").length = 6 := by decide +kernel
  by_cases hlength : label.length < 6
  · have hcolon : ':' ∈ (labelLine label).take 6 := by
      rw [List.take_of_length_le (by simp [labelLine]; omega)]
      simp [labelLine]
    have hfront : ∀ line : Text, ':' ∈ line.take 6 → isGlobal line = false := by
      intro line hline
      have hstart : Text.startsWith (ofString ".globl") line = false :=
        Text.startsWith_of_mem_take (by decide : Char.toLower ':' = ':') (hkeyword ▸ hline)
          (by decide +kernel)
      rw [isGlobal, hstart, Bool.false_and]
    have hcolon' : ':' ∈ (labelLine label ++ tail).take 6 := by
      rw [List.take_append]
      exact List.mem_append_left _ hcolon
    rw [hfront _ hcolon, hfront _ hcolon']
  · have hlong : 6 < (labelLine label).length := by
      simp [labelLine]
      omega
    have hhead : ((labelLine label ++ tail).drop 6).head? = ((labelLine label).drop 6).head? := by
      rw [List.drop_append_of_le_length (by omega)]
      exact List.head?_append_of_ne_nil _ (by simp; omega)
    rw [isGlobal, isGlobal, Text.startsWith, Text.startsWith, hkeyword, hhead,
      List.take_append_of_le_length (by omega)]

theorem isGlobal_labelLine (h : labelled? line = some (label, rest))
    (hglobal : isGlobal line = false) : isGlobal (labelLine label) = false := by
  obtain ⟨tail, rfl, -⟩ := labelled?_eq_some h
  rw [← isGlobal_labelLine_append label tail, labelLine, List.append_assoc]
  exact hglobal

theorem plain_of_colon (hcolon : ':' ∈ line) (hglobal : isGlobal line = false) : Plain line := by
  refine ⟨List.ne_nil_of_mem hcolon, ?_, ?_, hglobal⟩
  · rintro rfl
    revert hcolon
    decide +kernel
  · rintro rfl
    revert hcolon
    decide +kernel

theorem labelled?_length (h : labelled? line = some (label, rest)) : rest.length < line.length := by
  obtain ⟨tail, rfl, rfl, -⟩ := labelled?_eq_some h
  have htrim := (Text.trim_sublist tail).length_le
  simp only [List.length_append, List.length_cons]
  omega

theorem body_labelled (h : labelled? line = some (label, rest)) : body line = rest := by
  rw [body, h]

theorem content_labelled (h : labelled? line = some (label, rest)) (hrest : rest ≠ [])
    (d : Draft) : d.content line = (d.define label).place rest := by
  rw [content, h]
  cases rest with
  | nil => exact absurd rfl hrest
  | cons c t => rfl

theorem content_labelLine (h : labelled? line = some (label, rest)) (d : Draft) :
    d.content (labelLine label) = d.define label := by
  rw [content, labelled?_labelLine h]

theorem content_unlabelled (h : labelled? line = none) (d : Draft) :
    d.content line = d.place line := by
  rw [content, h]

end Labelled

section Ignored
variable {line : Text}

theorem ofText?_eq_none (hasciiz : Directive.argument? (ofString ".asciiz") line = none)
    (hword : Directive.argument? (ofString ".word") line = none) :
    Directive.ofText? line = none := by
  rw [Directive.ofText?, Directive.payload?, Directive.wordCount?, hasciiz, hword]
  rfl

theorem argument?_of_startsWith {keyword : Text} (h : Text.startsWith keyword line = false) :
    Directive.argument? keyword line = none := by
  rw [Directive.argument?, h]
  rfl

theorem argument?_labelled {label rest keyword : Text} (h : labelled? line = some (label, rest))
    (hkeyword : ':' ∉ keyword) : Directive.argument? keyword line = none := by
  obtain ⟨tail, rfl, -, -, hchars⟩ := labelled?_eq_some h
  by_cases hlength : label.length < keyword.length
  · apply argument?_of_startsWith
    apply Text.startsWith_of_mem_take (by decide : Char.toLower ':' = ':') _ hkeyword
    rw [List.take_append, List.take_of_length_le (by omega)]
    apply List.mem_append_right
    rw [List.take_cons (by omega)]
    exact List.mem_cons_self
  · have hdrop : (label ++ ':' :: tail).drop keyword.length =
        label.drop keyword.length ++ ':' :: tail :=
      List.drop_append_of_le_length (by omega)
    rw [Directive.argument?, hdrop]
    cases hfront : label.drop keyword.length with
    | nil => exact ite_self _
    | cons c front =>
      have hc : c ∈ label := List.mem_of_mem_drop (hfront ▸ List.mem_cons_self)
      have hblank := Operand.isLabelChar_not_blank (hchars c hc)
      simp [hblank]

theorem argument?_global {keyword : Text} (h : isGlobal line = true) (hlength : 2 ≤ keyword.length)
    (hkeyword : keyword.take 2 ≠ ofString ".g") : Directive.argument? keyword line = none := by
  apply argument?_of_startsWith
  rw [isGlobal, Bool.and_eq_true] at h
  have hglobal := Text.startsWith_take h.1 2
  by_contra hfront
  rw [Bool.not_eq_false] at hfront
  have hfront := Text.startsWith_take hfront 2
  have htwo : min 2 (ofString ".globl").length = 2 := by decide +kernel
  have hfirst : (ofString ".globl").take 2 = ofString ".g" := by decide +kernel
  rw [htwo, hfirst] at hglobal
  rw [Nat.min_eq_left hlength, hglobal] at hfront
  exact hkeyword hfront.symm

theorem ofText?_not_code (h : ¬ (Plain line ∧ labelled? line = none)) (hline : line ≠ []) :
    Directive.ofText? line = none := by
  by_cases hplain : Plain line
  · cases hlabel : labelled? line with
    | none => exact absurd ⟨hplain, hlabel⟩ h
    | some labelled =>
      exact ofText?_eq_none (argument?_labelled hlabel (by decide +kernel))
        (argument?_labelled hlabel (by decide +kernel))
  · by_cases htext : line = ofString ".text"
    · rw [htext]
      decide +kernel
    · by_cases hdata : line = ofString ".data"
      · rw [hdata]
        decide +kernel
      · have hglobal : isGlobal line = true := by
          simpa [Plain, hline, htext, hdata] using hplain
        exact ofText?_eq_none (argument?_global hglobal (by decide +kernel) (by decide +kernel))
          (argument?_global hglobal (by decide +kernel) (by decide +kernel))

end Ignored

/-- A stripped line with a label and more, and what the two lines of it are. -/
structure Prefixed (raw label rest : Text) : Prop where
  labelled : labelled? (strip raw) = some (label, rest)
  nonempty : rest ≠ []
  global : isGlobal (strip raw) = false

namespace Prefixed
variable {raw label rest : Text} (h : Prefixed raw label rest)
include h

theorem plain : Plain (strip raw) := by
  obtain ⟨tail, hline, -⟩ := labelled?_eq_some h.labelled
  apply plain_of_colon _ h.global
  rw [hline]
  simp

theorem plain_labelLine : Plain (labelLine label) :=
  plain_of_colon (by simp [labelLine]) (isGlobal_labelLine h.labelled h.global)

theorem not_mem {c : Char} (hc : c ∉ raw) : c ∉ rest :=
  fun hmem => hc ((strip_sublist raw).subset ((labelled?_sublist h.labelled).subset hmem))

theorem strip_rest : strip rest = rest := by
  obtain ⟨tail, -, hrest, -⟩ := labelled?_eq_some h.labelled
  have hhash : '#' ∉ rest := fun hmem =>
    hash_not_mem_strip raw ((labelled?_sublist h.labelled).subset hmem)
  rw [strip_of_not_mem hhash, hrest, Text.trim_trim]

theorem strip_labelLine : strip (labelLine label) = labelLine label := by
  obtain ⟨tail, -, -, -, hchars⟩ := labelled?_eq_some h.labelled
  have hline : ∀ c ∈ labelLine label, Operand.isLabelChar c = true ∨ c = ':' := by
    intro c hc
    rcases List.mem_append.mp hc with hc | hc
    · exact .inl (hchars c hc)
    · exact .inr (List.mem_singleton.mp hc)
  have hblank : ∀ c ∈ labelLine label, Text.isBlank c = false := by
    intro c hc
    rcases hline c hc with hc | rfl
    · exact Operand.isLabelChar_not_blank hc
    · decide
  have hhash : '#' ∉ labelLine label := by
    intro hmem
    rcases hline '#' hmem with hc | hc
    · revert hc
      decide
    · cases hc
  rw [strip_of_not_mem hhash]
  exact Text.trim_of_not_blank hblank

theorem newline_not_mem_labelLine (hraw : '\n' ∉ raw) : '\n' ∉ labelLine label := by
  obtain ⟨tail, hline, -⟩ := labelled?_eq_some h.labelled
  intro hmem
  apply hraw
  apply (strip_sublist raw).subset
  rw [hline]
  rcases List.mem_append.mp hmem with hmem | hmem
  · exact List.mem_append_left _ hmem
  · cases List.mem_singleton.mp hmem

theorem read_raw (d : Draft) : d.read raw = (d.define label).place rest := by
  rw [read_plain d h.plain, content_labelled h.labelled h.nonempty]

theorem read_labelLine (d : Draft) : d.read (labelLine label) = d.define label := by
  rw [read_plain d (h.strip_labelLine.symm ▸ h.plain_labelLine), h.strip_labelLine,
    content_labelLine h.labelled]

theorem read_rest (hplain : Plain rest) (hlabel : labelled? rest = none) (d : Draft) :
    d.read rest = d.place rest := by
  rw [read_plain d (h.strip_rest.symm ▸ hplain), h.strip_rest, content_unlabelled hlabel]

theorem newline_not_mem (hraw : '\n' ∉ raw) : ∀ l ∈ [labelLine label, rest], '\n' ∉ l := by
  intro l hl
  rcases List.mem_cons.mp hl with rfl | hl
  · exact h.newline_not_mem_labelLine hraw
  · rw [List.mem_singleton.mp hl]
    exact h.not_mem hraw

theorem read_dropped {d : Draft} (hd : d.segment = .data)
    (hrest : ¬ (Plain rest ∧ labelled? rest = none)) : d.read raw = d.read (labelLine label) := by
  rw [h.read_raw, h.read_labelLine, place, (define_segment d label).trans hd]
  show (Directive.ofText? rest).elim _ _ = _
  rw [ofText?_not_code hrest h.nonempty]
  rfl

/-- Of the lines that are not plain, only a switch to the text segment tells
in the data segment. -/
theorem read_rest_data {d : Draft} (hd : d.segment = .data) (htext : rest ≠ ofString ".text")
    (hplain : ¬ Plain rest) : d.read rest = d := by
  have hsegment : segmentAfter d.segment rest = d.segment := by
    rw [segmentAfter, h.strip_rest, if_neg htext, hd, ite_self]
  rw [read_not_plain d (h.strip_rest.symm ▸ hplain), hsegment]

theorem read_two (hplain : Plain rest) (hlabel : labelled? rest = none) (d : Draft) :
    (d.read (labelLine label)).read rest = d.read raw := by
  rw [h.read_labelLine, h.read_rest hplain hlabel, h.read_raw]

theorem read_two_data {d : Draft} (hd : d.segment = .data) (htext : rest ≠ ofString ".text")
    (hlabel : labelled? rest = none) : (d.read (labelLine label)).read rest = d.read raw := by
  by_cases hplain : Plain rest
  · exact h.read_two hplain hlabel d
  · have hd' : (d.read (labelLine label)).segment = .data := by
      rw [h.read_labelLine, define_segment, hd]
    rw [h.read_rest_data hd' htext hplain, h.read_dropped hd fun hrest => hplain hrest.1]

end Prefixed

theorem linesOf_text_sublist (s : Segment) (lines : List Text) :
    (linesOf .text s lines).Sublist (linesOf .text .text lines) := by
  induction lines generalizing s with
  | nil => exact List.Sublist.refl _
  | cons raw lines ih =>
    cases s with
    | text => exact List.Sublist.refl _
    | data =>
      have hnone : lineOf .text .data raw = [] := if_neg fun h => nomatch h.1
      rw [linesOf, linesOf, hnone, List.nil_append]
      by_cases hplain : Plain (strip raw)
      · rw [segmentAfter_plain _ hplain, segmentAfter_plain _ hplain]
        exact (ih .data).trans (List.sublist_append_right _ _)
      · have hnone : lineOf .text .text raw = [] := if_neg fun h => hplain h.2
        rw [hnone, List.nil_append]
        -- After a segment switch both read the same lines in the same segment.
        unfold segmentAfter
        split_ifs
        · exact List.Sublist.refl _
        · exact List.Sublist.refl _
        · exact ih .data

theorem kept_append (s : Segment) (before after : List Text) :
    kept s (before ++ after) = kept s before ++ kept (before.foldl segmentAfter s) after := by
  simp [kept, linesOf_append]

theorem kept_sublist (s : Segment) (lines : List Text) :
    (kept s lines).Sublist (kept .text lines) :=
  ((linesOf_text_sublist s lines).map body).filter _

theorem kept_code {raw : Text} (h : Plain (strip raw)) (hbody : body (strip raw) ≠ []) :
    kept .text [raw] = [body (strip raw)] := by
  simp [kept, linesOf, lineOf, h, hbody]

/-- The letters of instruction lines, as their instructions hold them. -/
def written (lines : List Text) : Text := lines.flatMap Text.trim

theorem written_cons (line : Text) (lines : List Text) :
    written (line :: lines) = Text.trim line ++ written lines := rfl

theorem written_append (front back : List Text) :
    written (front ++ back) = written front ++ written back := List.flatMap_append

theorem written_sublist {front back : List Text} (h : front.Sublist back) :
    (written front).Sublist (written back) := by
  induction h with
  | slnil => exact List.Sublist.refl _
  | cons line _ ih => exact ih.trans (List.sublist_append_right _ _)
  | cons_cons line _ ih => exact (List.Sublist.refl _).append ih

/-- A line of code is written without what makes it more than an instruction. -/
theorem written_kept_lt {line : Text} (hstrip : strip line = line) (hline : line ≠ [])
    (h : ¬ (Plain line ∧ labelled? line = none)) :
    (written (kept .text [line])).length < line.length := by
  by_cases hplain : Plain line
  · cases hlabel : labelled? line with
    | none => exact absurd ⟨hplain, hlabel⟩ h
    | some labelled =>
      have hlength := labelled?_length hlabel
      have htrim := (Text.trim_sublist labelled.2).length_le
      have hkept : (kept .text [line]).Sublist [labelled.2] := by
        rw [kept, linesOf, linesOf, lineOf, hstrip, if_pos ⟨rfl, hplain⟩, List.append_nil,
          List.map_singleton, body_labelled hlabel]
        exact List.filter_sublist
      have hwritten := (written_sublist hkept).length_le
      rw [written_cons, List.length_append] at hwritten
      exact (hwritten.trans htrim).trans_lt hlength
  · have hkept : kept .text [line] = [] := by
      simp [kept, linesOf, lineOf, hstrip, hplain]
    rw [hkept]
    exact List.length_pos_iff.mpr hline

section Kept
variable {raw label rest : Text} {before : List Text}

theorem Prefixed.lines_raw (h : Prefixed raw label rest)
    (hseg : before.foldl segmentAfter .text = .text) (after : List Text) :
    (ofLines (before ++ raw :: after)).lines =
      (ofLines before).lines ++ rest :: kept .text after := by
  have hbody := body_labelled h.labelled
  have hraw := kept_code h.plain (hbody.symm ▸ h.nonempty)
  rw [lines_ofLines, lines_ofLines, kept_append, hseg, ← List.singleton_append, kept_append, hraw,
    hbody, List.foldl_cons, segmentAfter_plain _ h.plain]
  rfl

theorem Prefixed.lines_two (h : Prefixed raw label rest)
    (hseg : before.foldl segmentAfter .text = .text) (after : List Text) :
    (ofLines (before ++ labelLine label :: rest :: after)).lines =
      (ofLines before).lines ++ (kept .text [rest] ++ kept (segmentAfter .text rest) after) := by
  have hplain : Plain (strip (labelLine label)) := h.strip_labelLine.symm ▸ h.plain_labelLine
  have hlabel : kept .text [labelLine label] = [] := by
    have hbody := body_labelled (labelled?_labelLine h.labelled)
    simp [kept, linesOf, lineOf, h.strip_labelLine, hbody]
  rw [lines_ofLines, lines_ofLines, kept_append, hseg, ← List.singleton_append, kept_append, hlabel,
    List.nil_append, List.foldl_cons, segmentAfter_plain _ hplain, ← List.singleton_append,
    kept_append]
  rfl

theorem Prefixed.written_two_lt (h : Prefixed raw label rest)
    (hseg : before.foldl segmentAfter .text = .text)
    (hrest : ¬ (Plain rest ∧ labelled? rest = none)) (after : List Text) :
    (written (ofLines (before ++ labelLine label :: rest :: after)).lines).length <
      (written (ofLines (before ++ raw :: after)).lines).length := by
  have htrim : Text.trim rest = rest := by
    obtain ⟨tail, -, htail, -⟩ := labelled?_eq_some h.labelled
    rw [htail, Text.trim_trim]
  have hlt := written_kept_lt h.strip_rest h.nonempty hrest
  have hle := (written_sublist (kept_sublist (segmentAfter .text rest) after)).length_le
  rw [h.lines_raw hseg, h.lines_two hseg]
  simp only [written_append, written_cons, htrim, List.length_append]
  omega

end Kept

end Draft

theorem written_eq_of_load {source source' : Text} {p : Program} (hload : load source = .ok p)
    (h : load source' = load source) :
    Draft.written (Draft.ofLines (source'.splitOn '\n')).lines =
      Draft.written (Draft.ofLines (source.splitOn '\n')).lines := by
  have hwritten : ∀ d : Draft, Draft.written d.lines =
      d.program.instructions.flatMap Instruction.text := by
    intro d
    rw [Draft.program, List.flatMap_map]
    rfl
  rw [hwritten, hwritten, ← load_eq_ok hload, ← load_eq_ok (h.trans hload)]

def relined (before lines after : List Text) : Text := ['\n'].intercalate (before ++ lines ++ after)

section Relining
variable {source raw label rest : Text} {before after : List Text}

theorem splitOn_relined (hsplit : source.splitOn '\n' = before ++ raw :: after) {line : Text}
    {lines : List Text} (hlines : ∀ l ∈ line :: lines, '\n' ∉ l) :
    (relined before (line :: lines) after).splitOn '\n' = before ++ (line :: lines) ++ after := by
  have hold : ∀ l ∈ before ++ raw :: after, '\n' ∉ l := by
    rw [← hsplit]
    exact fun l => not_mem_of_mem_splitOn
  apply List.splitOn_intercalate '\n'
  · intro l hl
    rcases List.mem_append.mp hl with hl | hl
    · rcases List.mem_append.mp hl with hl | hl
      · exact hold l (List.mem_append_left _ hl)
      · exact hlines l hl
    · exact hold l (List.mem_append_right _ (List.mem_cons_of_mem _ hl))
  · simp

theorem load_of_ofLines {source' : Text}
    (h : Draft.ofLines (source'.splitOn '\n') = Draft.ofLines (source.splitOn '\n')) :
    load source' = load source := by
  have hdraft : Draft.ofSource source' = Draft.ofSource source := h
  rw [load, load, hdraft]

theorem newline_not_mem_of_splitOn (hsplit : source.splitOn '\n' = before ++ raw :: after) :
    '\n' ∉ raw := by
  have hraw : raw ∈ source.splitOn '\n' := by
    rw [hsplit]
    exact List.mem_append_right _ List.mem_cons_self
  exact not_mem_of_mem_splitOn hraw

theorem splitOn_two (hsplit : source.splitOn '\n' = before ++ raw :: after)
    (h : Draft.Prefixed raw label rest) :
    (relined before [Draft.labelLine label, rest] after).splitOn '\n' =
      before ++ Draft.labelLine label :: rest :: after := by
  have hraw := newline_not_mem_of_splitOn hsplit
  rw [splitOn_relined hsplit (h.newline_not_mem hraw)]
  simp

theorem splitOn_one (hsplit : source.splitOn '\n' = before ++ raw :: after)
    (h : Draft.Prefixed raw label rest) :
    (relined before [Draft.labelLine label] after).splitOn '\n' =
      before ++ Draft.labelLine label :: after := by
  have hraw := newline_not_mem_of_splitOn hsplit
  have hlabel : ∀ l ∈ [Draft.labelLine label], '\n' ∉ l := by
    intro l hl
    rw [List.mem_singleton.mp hl]
    exact h.newline_not_mem_labelLine hraw
  rw [splitOn_relined hsplit hlabel]
  simp

theorem load_two (hsplit : source.splitOn '\n' = before ++ raw :: after)
    (h : Draft.Prefixed raw label rest)
    (hread : ((Draft.ofLines before).read (Draft.labelLine label)).read rest =
      (Draft.ofLines before).read raw) :
    load (relined before [Draft.labelLine label, rest] after) = load source := by
  apply load_of_ofLines
  rw [splitOn_two hsplit h, hsplit, Draft.ofLines_append, Draft.ofLines_append]
  simp only [List.foldl_cons, hread]

/-- A line with a label and more in the text segment is an instruction, whatever
it says. It is loaded as its two lines just if the rest of it is neither a
segment switch nor a global declaration nor another label. In the data segment
such a rest is dropped, so that a switch to the text segment is lost. -/
theorem load_labelled_line (hsplit : source.splitOn '\n' = before ++ raw :: after)
    (h : Draft.Prefixed raw label rest) :
    (before.foldl Draft.segmentAfter .text = .text →
      (∃ p, load source = .ok p ∧
        p.at? (Draft.ofLines before).lines.length = some (Instruction.decode p.symbols rest)) ∧
      (load (relined before [Draft.labelLine label, rest] after) = load source ↔
        Draft.Plain rest ∧ Draft.labelled? rest = none)) ∧
    (before.foldl Draft.segmentAfter .text = .data →
      (rest ≠ ofString ".text" ∧ Draft.labelled? rest = none →
        load (relined before [Draft.labelLine label, rest] after) = load source) ∧
      (¬ (Draft.Plain rest ∧ Draft.labelled? rest = none) →
        load (relined before [Draft.labelLine label] after) = load source)) := by
  have hsegment : (Draft.ofLines before).segment = before.foldl Draft.segmentAfter .text :=
    Draft.ofLines_segment before
  apply And.intro
  · intro htext
    have hlines := h.lines_raw htext after
    have hload : load source = .ok (Draft.ofLines (before ++ raw :: after)).program :=
      load_of_lines (congrArg Draft.ofLines hsplit) (by simp [hlines])
    apply And.intro
    · apply Exists.intro _
      apply And.intro hload
      rw [Draft.at?_program, if_pos (Int.natCast_nonneg _), hlines]
      simp [Draft.program]
    · apply Iff.intro
      · intro heq
        -- The one line is written with more letters than the two of it.
        by_contra hrest
        have hwritten := written_eq_of_load hload heq
        have hlt := h.written_two_lt htext hrest after
        rw [splitOn_two hsplit h, hsplit] at hwritten
        rw [hwritten] at hlt
        exact Nat.lt_irrefl _ hlt
      · intro hrest
        exact load_two hsplit h (h.read_two hrest.1 hrest.2 _)
  · intro hdata
    have hd := hsegment.trans hdata
    apply And.intro
    · intro hrest
      exact load_two hsplit h (h.read_two_data hd hrest.1 hrest.2)
    · intro hrest
      apply load_of_ofLines
      rw [splitOn_one hsplit h, hsplit, Draft.ofLines_append, Draft.ofLines_append]
      simp only [List.foldl_cons, h.read_dropped hd hrest]

theorem load_labelled_line_lost_switch :
    load (ofString "loop:\nj loop") = load (ofString "loop: j loop") ∧
      load (ofString ".data\nx:\nsyscall") = load (ofString ".data\nx: .text\nsyscall") := by
  have hjump : Draft.Prefixed (ofString "loop: j loop") (ofString "loop") (ofString "j loop") :=
    ⟨by decide +kernel, by decide +kernel, by decide +kernel⟩
  have hswitch : Draft.Prefixed (ofString "x: .text") (ofString "x") (ofString ".text") :=
    ⟨by decide +kernel, by decide +kernel, by decide +kernel⟩
  have hjumpLines : (ofString "loop: j loop").splitOn '\n' =
      [] ++ ofString "loop: j loop" :: [] := by decide +kernel
  have hswitchLines : (ofString ".data\nx: .text\nsyscall").splitOn '\n' =
      [ofString ".data"] ++ ofString "x: .text" :: [ofString "syscall"] := by decide +kernel
  have htwo : relined [] [Draft.labelLine (ofString "loop"), ofString "j loop"] [] =
      ofString "loop:\nj loop" := by decide +kernel
  have hone : relined [ofString ".data"] [Draft.labelLine (ofString "x")] [ofString "syscall"] =
      ofString ".data\nx:\nsyscall" := by decide +kernel
  have hplain : Draft.Plain (ofString "j loop") ∧ Draft.labelled? (ofString "j loop") = none := by
    decide +kernel
  rw [← htwo, ← hone]
  apply And.intro
  · exact ((load_labelled_line hjumpLines hjump).1 rfl).2.mpr hplain
  · exact ((load_labelled_line hswitchLines hswitch).2 (by decide +kernel)).2 (by decide +kernel)

theorem second_label_kept :
    Draft.Prefixed (ofString "a: b: j a") (ofString "a") (ofString "b: j a") ∧
      (ofString "a: b: j a").splitOn '\n' = [ofString "a: b: j a"] ∧
      load (relined [] [Draft.labelLine (ofString "a"), ofString "b: j a"] []) ≠
        load (ofString "a: b: j a") := by
  have hlines : (Draft.ofLines ((ofString "a: b: j a").splitOn '\n')).lines ≠ [] := by
    decide +kernel
  have hwritten : Draft.written (Draft.ofLines ((relined [] [Draft.labelLine (ofString "a"),
      ofString "b: j a"] []).splitOn '\n')).lines ≠
      Draft.written (Draft.ofLines ((ofString "a: b: j a").splitOn '\n')).lines := by
    decide +kernel
  refine ⟨⟨by decide +kernel, by decide +kernel, by decide +kernel⟩, by decide +kernel, ?_⟩
  exact fun hload => hwritten (written_eq_of_load (load_of_lines rfl hlines) hload)

end Relining

end MipsStepper
