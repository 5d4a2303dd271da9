import MipsStepper.Proofs.Storage

/-!
# The two segments

Lines of code and lines of data change disjoint parts of a draft, and neither
reads the part of the other. So a draft is the code of one draft, which has
read the lines of the text segment, joined to the data of another, which has
read those of the data segment, however the two kinds are mixed in the source.
-/

set_option autoImplicit false

namespace MipsStepper

namespace Draft

def lineOf (target s : Segment) (raw : Text) : List Text :=
  if s = target ∧ Plain (strip raw) then [strip raw] else []

/-- The lines of one segment, stripped and in their order, from an open
segment on. -/
def linesOf (target : Segment) : Segment → List Text → List Text
  | _, [] => []
  | s, raw :: rest => lineOf target s raw ++ linesOf target (segmentAfter s raw) rest

def codeLines (lines : List Text) : List Text := linesOf .text .text lines

def dataLines (lines : List Text) : List Text := linesOf .data .text lines

/-- The instruction lines among lines, from an open segment on. A label that
stands alone leaves none. -/
def kept (s : Segment) (lines : List Text) : List Text :=
  ((linesOf .text s lines).map body).filter (· ≠ [])

theorem linesOf_append (target s : Segment) (before after : List Text) :
    linesOf target s (before ++ after) =
      linesOf target s before ++ linesOf target (before.foldl segmentAfter s) after := by
  induction before generalizing s with
  | nil => rfl
  | cons raw before ih => simp [linesOf, ih]

def join (code data : Draft) (s : Segment) : Draft where
  segment := s
  lines := code.lines
  symbols := { labels := code.symbols.labels, dataLabels := data.symbols.dataLabels }
  strings := data.strings
  cursor := data.cursor

section Joining
variable {code data : Draft}

theorem join_define_text (h : code.segment = .text) (label : Text) :
    (join code data .text).define label = join (code.define label) data .text := by
  rw [define, define, h]
  rfl

theorem join_define_data (h : data.segment = .data) (label : Text) :
    (join code data .data).define label = join code (data.define label) .data := by
  rw [define, define, h]
  rfl

theorem join_place_text (h : code.segment = .text) (line : Text) :
    (join code data .text).place line = join (code.place line) data .text := by
  rw [place, place, h]
  rfl

theorem join_place_data (h : data.segment = .data) (line : Text) :
    (join code data .data).place line = join code (data.place line) .data := by
  rw [place, place, h]
  show (Directive.ofText? line).elim _ _ = join code ((Directive.ofText? line).elim _ _) .data
  cases Directive.ofText? line with
  | none => rfl
  | some directive => cases directive <;> rfl

theorem join_content_text (h : code.segment = .text) (line : Text) :
    (join code data .text).content line = join (code.content line) data .text := by
  unfold content
  split
  · exact join_define_text h _
  · rw [join_define_text h, join_place_text ((define_segment code _).trans h)]
  · exact join_place_text h line

theorem join_content_data (h : data.segment = .data) (line : Text) :
    (join code data .data).content line = join code (data.content line) .data := by
  unfold content
  split
  · exact join_define_data h _
  · rw [join_define_data h, join_place_data ((define_segment data _).trans h)]
  · exact join_place_data h line

theorem foldl_content_segment (lines : List Text) (d : Draft) :
    (lines.foldl content d).segment = d.segment := by
  induction lines generalizing d with
  | nil => rfl
  | cons line lines ih => exact (ih _).trans (content_segment d line)

theorem segmentAfter_plain (s : Segment) {raw : Text} (h : Plain (strip raw)) :
    segmentAfter s raw = s := by
  rw [segmentAfter, if_neg h.2.1, if_neg h.2.2.1]

/-- One line is read by the draft of the segment that is open, if it is read
at all. -/
theorem join_read (hcode : code.segment = .text) (hdata : data.segment = .data) (s : Segment)
    (raw : Text) :
    (join code data s).read raw =
      join ((lineOf .text s raw).foldl content code) ((lineOf .data s raw).foldl content data)
        (segmentAfter s raw) := by
  by_cases hplain : Plain (strip raw)
  · rw [read_plain _ hplain, segmentAfter_plain s hplain]
    cases s with
    | text => simpa [lineOf, hplain] using join_content_text hcode (strip raw)
    | data => simpa [lineOf, hplain] using join_content_data hdata (strip raw)
  · rw [read_not_plain _ hplain]
    simp [lineOf, hplain, join]

theorem join_foldl_read (hcode : code.segment = .text) (hdata : data.segment = .data)
    (s : Segment) (lines : List Text) :
    lines.foldl read (join code data s) =
      join ((linesOf .text s lines).foldl content code) ((linesOf .data s lines).foldl content data)
        (lines.foldl segmentAfter s) := by
  induction lines generalizing code data s with
  | nil => rfl
  | cons raw lines ih =>
    rw [List.foldl_cons, join_read hcode hdata, ih, linesOf, linesOf, List.foldl_append,
      List.foldl_append, List.foldl_cons]
    · exact (foldl_content_segment _ code).trans hcode
    · exact (foldl_content_segment _ data).trans hdata

end Joining

theorem ofLines_eq_join (lines : List Text) :
    ofLines lines = join ((codeLines lines).foldl content {})
      ((dataLines lines).foldl content { segment := .data }) (lines.foldl segmentAfter .text) :=
  @join_foldl_read {} { segment := .data } rfl rfl .text lines

theorem exists_of_mem_linesOf {target s : Segment} {lines : List Text} {line : Text}
    (h : line ∈ linesOf target s lines) : ∃ raw ∈ lines, line = strip raw ∧ Plain line := by
  induction lines generalizing s with
  | nil => cases h
  | cons raw lines ih =>
    rcases List.mem_append.mp h with h | h
    · unfold lineOf at h
      split_ifs at h with hplain
      · rw [List.mem_singleton] at h
        exact ⟨raw, List.mem_cons_self, h, h ▸ hplain.2⟩
      · cases h
    · obtain ⟨raw', hraw, hline⟩ := ih h
      exact ⟨raw', List.mem_cons_of_mem _ hraw, hline⟩

theorem lines_content {d : Draft} (hd : d.segment = .text) {line : Text} (hline : line ≠ []) :
    (d.content line).lines = d.lines ++ [body line].filter (· ≠ []) := by
  unfold content body
  split
  · simp [define_lines, *]
  · simp_all [place, define_segment, define_lines]
  · simp [place, *]

theorem lines_foldl_content {lines : List Text} (hlines : ∀ line ∈ lines, line ≠ []) {d : Draft}
    (hd : d.segment = .text) :
    (lines.foldl content d).lines = d.lines ++ (lines.map body).filter (· ≠ []) := by
  induction lines generalizing d with
  | nil => simp
  | cons line lines ih =>
    have hrest := ih (fun l hl => hlines l (by simp [hl])) ((content_segment d line).trans hd)
    rw [List.foldl_cons, hrest, lines_content hd (hlines line (by simp)), List.append_assoc,
      ← List.filter_append, List.map_cons, List.singleton_append]

theorem lines_ofLines (lines : List Text) : (ofLines lines).lines = kept .text lines := by
  have hne : ∀ line ∈ codeLines lines, line ≠ [] := by
    intro line hline
    obtain ⟨-, -, -, hplain⟩ := exists_of_mem_linesOf hline
    exact hplain.1
  rw [ofLines_eq_join]
  exact lines_foldl_content hne rfl

theorem program_congr {lines lines' : List Text} (hcode : codeLines lines = codeLines lines')
    (hdata : dataLines lines = dataLines lines') :
    (ofLines lines).program = (ofLines lines').program := by
  rw [ofLines_eq_join lines, ofLines_eq_join lines', hcode, hdata]
  rfl

end Draft

theorem load_eq_error_iff (source : Text) (e : LoadError) :
    load source = .error e ↔
      e = .emptyProgram ∧ ∀ line ∈ Draft.codeLines (source.splitOn '\n'), Draft.body line = [] := by
  have hlines := Draft.lines_ofLines (source.splitOn '\n')
  have hempty : (Draft.ofSource source).lines = [] ↔
      ∀ line ∈ Draft.codeLines (source.splitOn '\n'), Draft.body line = [] := by
    rw [show Draft.ofSource source = Draft.ofLines (source.splitOn '\n') from rfl, hlines]
    simp [Draft.kept, Draft.codeLines]
  rw [load, ← hempty]
  split_ifs with h
  · simp [h, eq_comm]
  · simp [h]

theorem load_congr {source source' : Text}
    (hcode : Draft.codeLines (source.splitOn '\n') = Draft.codeLines (source'.splitOn '\n'))
    (hdata : Draft.dataLines (source.splitOn '\n') = Draft.dataLines (source'.splitOn '\n')) :
    load source = load source' := by
  have hprogram : (Draft.ofSource source).program = (Draft.ofSource source').program :=
    Draft.program_congr hcode hdata
  have hlines : (Draft.ofSource source).lines = (Draft.ofSource source').lines := by
    show (Draft.ofLines _).lines = (Draft.ofLines _).lines
    rw [Draft.lines_ofLines, Draft.lines_ofLines]
    exact congrArg (fun lines => (lines.map Draft.body).filter (· ≠ [])) hcode
  rw [load, load, hprogram, hlines]

end MipsStepper
