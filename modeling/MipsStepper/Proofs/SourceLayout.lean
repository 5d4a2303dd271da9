import MipsStepper.Proofs.Segments

/-!
# The layout of a source

A source is read by its lines of code and its lines of data, each in their
order. How the two kinds are mixed is no part of what is loaded, and neither
are the blanks around a line, the lines that are blank or hold a comment
alone, the carriage return of a line end and the newline after the last line.
-/

set_option autoImplicit false

namespace MipsStepper
open Text (ofString)

def Blank (t : Text) : Prop := ∀ c ∈ t, Text.isBlank c = true

/-- The lines of a source and those of a new layout of it. A line may be padded
with blanks at both ends, and blank lines and lines of comment may be put
before any line and after the last. -/
inductive Relaid : List Text → List Text → Prop where
  | nil : Relaid [] []
  | pad {lines lines' : List Text} {left right : Text} (raw : Text) (hleft : Blank left)
      (hright : Blank right) (h : Relaid lines lines') :
      Relaid (raw :: lines) ((left ++ raw ++ right) :: lines')
  | blank {lines lines' : List Text} {left : Text} (hleft : Blank left)
      (h : Relaid lines lines') : Relaid lines (left :: lines')
  | comment {lines lines' : List Text} {left : Text} (hleft : Blank left) (remark : Text)
      (h : Relaid lines lines') : Relaid lines ((left ++ '#' :: remark) :: lines')

def crlf : Text → Text
  | [] => []
  | c :: source => if c = '\n' then '\r' :: '\n' :: crlf source else c :: crlf source

theorem Blank.of_all {t : Text} (h : t.all Text.isBlank = true) : Blank t := List.all_eq_true.mp h

theorem Blank.not_hash {t : Text} (h : Blank t) : ∀ c ∈ t, (decide (c ≠ '#')) = true := by
  intro c hc
  have hblank := h c hc
  rw [decide_eq_true_eq]
  intro hhash
  rw [hhash] at hblank
  revert hblank
  decide

namespace Draft

/-- Blanks at the right end of a line stand in its comment or are trimmed. -/
theorem strip_pad {left right : Text} (hleft : Blank left) (hright : Blank right) (raw : Text) :
    strip (left ++ raw ++ right) = strip raw := by
  rw [strip, List.append_assoc, List.takeWhile_append_of_pos hleft.not_hash, List.takeWhile_append,
    List.takeWhile_eq_self_iff.mpr hright.not_hash]
  split
  · rename_i hlength
    rw [← List.append_assoc, Text.trim_pad hleft hright, strip,
      (List.takeWhile_prefix _).eq_of_length hlength]
  · exact Text.trim_blank_append hleft (raw.takeWhile (· ≠ '#'))

theorem strip_blank {left : Text} (hleft : Blank left) : strip left = [] := by
  have h := strip_pad hleft (List.forall_mem_nil _) []
  rw [List.append_nil, List.append_nil] at h
  exact h

theorem strip_comment {left : Text} (hleft : Blank left) (remark : Text) :
    strip (left ++ '#' :: remark) = [] := by
  rw [strip, List.takeWhile_append_of_pos hleft.not_hash, List.takeWhile_cons_of_neg (by simp)]
  exact Text.trim_blank_append hleft []

theorem segmentAfter_blank (s : Segment) {raw : Text} (h : strip raw = []) :
    segmentAfter s raw = s := by
  rw [segmentAfter, h, if_neg (nil_ne_ofString (by decide)), if_neg (nil_ne_ofString (by decide))]

theorem linesOf_cons_blank (target s : Segment) {raw : Text} (h : strip raw = [])
    (lines : List Text) : linesOf target s (raw :: lines) = linesOf target s lines := by
  have hplain : ¬ (s = target ∧ Plain (strip raw)) := fun hline => hline.2.1 h
  rw [linesOf, lineOf, if_neg hplain, segmentAfter_blank s h, List.nil_append]

theorem linesOf_cons_congr (target s : Segment) {raw raw' : Text} (h : strip raw' = strip raw)
    {lines lines' : List Text}
    (hlines : linesOf target (segmentAfter s raw) lines' =
      linesOf target (segmentAfter s raw) lines) :
    linesOf target s (raw' :: lines') = linesOf target s (raw :: lines) := by
  have hafter : segmentAfter s raw' = segmentAfter s raw := by
    rw [segmentAfter, segmentAfter, h]
  rw [linesOf, linesOf, lineOf, lineOf, h, hafter, hlines]

theorem linesOf_relaid {lines lines' : List Text} (h : Relaid lines lines')
    (target s : Segment) : linesOf target s lines' = linesOf target s lines := by
  induction h generalizing s with
  | nil => rfl
  | pad raw hleft hright _ ih =>
    exact linesOf_cons_congr target s (strip_pad hleft hright raw) (ih _)
  | blank hleft _ ih => rw [linesOf_cons_blank target s (strip_blank hleft), ih]
  | comment hleft remark _ ih =>
    rw [linesOf_cons_blank target s (strip_comment hleft remark), ih]

end Draft

theorem Relaid.cons {lines lines' : List Text} (raw : Text) (h : Relaid lines lines') :
    Relaid (raw :: lines) (raw :: lines') := by
  have hpad := h.pad raw (List.forall_mem_nil _) (List.forall_mem_nil _)
  rwa [List.nil_append, List.append_nil] at hpad

theorem Relaid.concat_nil (lines : List Text) : Relaid lines (lines ++ [[]]) := by
  induction lines with
  | nil => exact .blank (List.forall_mem_nil _) .nil
  | cons raw lines ih => exact ih.cons raw

def Returned (raw raw' : Text) : Prop := raw' = raw ∨ raw' = raw ++ ['\r']

theorem Relaid.of_forall₂ {lines lines' : List Text}
    (h : List.Forall₂ Returned lines lines') : Relaid lines lines' := by
  induction h with
  | nil => exact .nil
  | @cons raw raw' lines lines' hraw _ ih =>
    rcases hraw with rfl | rfl
    · exact ih.cons raw'
    · exact ih.pad raw (List.forall_mem_nil _) (.of_all (by decide))

theorem Returned.modifyHead (c : Char) {lines lines' : List Text}
    (h : List.Forall₂ Returned lines lines') :
    List.Forall₂ Returned (lines.modifyHead (c :: ·)) (lines'.modifyHead (c :: ·)) := by
  cases h with
  | nil => exact .nil
  | cons hraw hrest =>
    apply List.Forall₂.cons _ hrest
    rcases hraw with rfl | rfl
    · exact .inl rfl
    · exact .inr rfl

/-- The carriage returns end the lines that a newline closes. -/
theorem splitOn_crlf (source : Text) :
    List.Forall₂ Returned (source.splitOn '\n') ((crlf source).splitOn '\n') := by
  induction source with
  | nil => exact .cons (.inl rfl) .nil
  | cons c source ih =>
    by_cases hc : c = '\n'
    · rw [crlf, if_pos hc, hc]
      simp only [List.splitOn_cons_eq_if_modifyHead]
      exact .cons (.inr rfl) ih
    · rw [crlf, if_neg hc, List.splitOn_cons_eq_if_modifyHead, List.splitOn_cons_eq_if_modifyHead,
        if_neg (by simpa using hc), if_neg (by simpa using hc)]
      exact Returned.modifyHead c ih

theorem splitOn_concat_newline (source : Text) :
    (source ++ ['\n']).splitOn '\n' = source.splitOn '\n' ++ [[]] := by
  rw [List.splitOn_eq_splitOnP, List.splitOn_eq_splitOnP, List.splitOnP_append_cons]
  · rfl
  · rfl

theorem load_relaid {source source' : Text}
    (h : Relaid (source.splitOn '\n') (source'.splitOn '\n')) : load source' = load source :=
  load_congr (Draft.linesOf_relaid h _ _) (Draft.linesOf_relaid h _ _)

/-- What is loaded depends on the lines of code and the lines of data alone, and
loading fails only for want of an instruction. So the order of the segments and
the layout of the lines are all one. -/
theorem load_by_segments :
    (∀ source source' : Text,
      Draft.codeLines (source.splitOn '\n') = Draft.codeLines (source'.splitOn '\n') →
      Draft.dataLines (source.splitOn '\n') = Draft.dataLines (source'.splitOn '\n') →
      load source = load source') ∧
    (∀ (source : Text) (e : LoadError), load source = .error e ↔
      e = .emptyProgram ∧
        ∀ line ∈ Draft.codeLines (source.splitOn '\n'), Draft.body line = []) ∧
    (∀ source source' : Text, Relaid (source.splitOn '\n') (source'.splitOn '\n') →
      load source' = load source) ∧
    (∀ source : Text, load (crlf source) = load source) ∧
    ∀ source : Text, load (source ++ ['\n']) = load source := by
  refine ⟨fun source source' => load_congr, load_eq_error_iff, fun source source' => load_relaid,
    fun source => ?_, fun source => ?_⟩
  · exact load_relaid (Relaid.of_forall₂ (splitOn_crlf source))
  · apply load_relaid
    rw [splitOn_concat_newline]
    exact Relaid.concat_nil _

def dataFirst : Text := ofString ".data\nx: .word 7\n.text\nlw $t0, x"

def dataLast : Text := ofString "lw $t0, x # the word\n.data\n.globl x\n  x: .word 7"

def dataFirstRelaid : Text := ofString ".data\n# the word\n  x: .word 7\n\n.text\nlw $t0, x"

theorem load_by_segments_data_last :
    load dataFirst = load dataLast ∧ load dataFirst ≠ .error .emptyProgram ∧
      load dataFirstRelaid = load dataFirst := by
  have hcode : Draft.codeLines (dataFirst.splitOn '\n') = [ofString "lw $t0, x"] := by
    decide +kernel
  have hcode' : Draft.codeLines (dataLast.splitOn '\n') = [ofString "lw $t0, x"] := by
    decide +kernel
  have hdata : Draft.dataLines (dataFirst.splitOn '\n') = [ofString "x: .word 7"] := by
    decide +kernel
  have hdata' : Draft.dataLines (dataLast.splitOn '\n') = [ofString "x: .word 7"] := by
    decide +kernel
  have hlines : dataFirst.splitOn '\n' = [ofString ".data", ofString "x: .word 7",
      ofString ".text", ofString "lw $t0, x"] := by decide +kernel
  have hrelaid : dataFirstRelaid.splitOn '\n' = [ofString ".data", ofString "# the word",
      ofString "  " ++ ofString "x: .word 7" ++ [], [], ofString ".text",
      ofString "lw $t0, x"] := by decide +kernel
  have hcomment : ofString "# the word" = [] ++ '#' :: ofString " the word" := by decide +kernel
  have hbody : Draft.body (ofString "lw $t0, x") ≠ [] := by decide +kernel
  refine ⟨load_by_segments.1 _ _ (hcode.trans hcode'.symm) (hdata.trans hdata'.symm), ?_, ?_⟩
  · intro herror
    have hnone := ((load_by_segments.2.1 _ _).mp herror).2
    rw [hcode] at hnone
    exact hbody (hnone _ (List.mem_singleton_self _))
  · apply load_by_segments.2.2.1
    rw [hlines, hrelaid, hcomment]
    exact (Relaid.comment (List.forall_mem_nil _) _ <| .pad _ (.of_all (by decide +kernel))
      (List.forall_mem_nil _) <| .blank (List.forall_mem_nil _) <|
        (Relaid.nil.cons _).cons _).cons _

end MipsStepper
