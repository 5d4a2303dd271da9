import MipsStepper.Proofs.Renumbering

/-!
# One more line of code

A line of code that is put between two lines of the text segment is read as
one more instruction line after those before it. Everything else is read as
before: the segment, the strings and the data labels do not depend on it,
and a text label moves with the line it was defined at. The program with one
idle line more is thus the other program, renumbered.
-/

set_option autoImplicit false

namespace MipsStepper
open Text (ofString)

namespace Symbols
variable {n : Int} {s s' : Symbols}

theorem Moved.defineLabel (h : s.Moved n s') (label : Text) {i i' : Int} (hi : LeadsTo n i i') :
    (s.defineLabel label i).Moved n (s'.defineLabel label i') where
  dataLabels := h.dataLabels
  labels := by
    intro l
    rw [index?_defineLabel, index?_defineLabel]
    split_ifs
    · exact .some hi
    · exact h.labels l

theorem Moved.defineDataLabel (h : s.Moved n s') (label : Text) (a : Word) :
    (s.defineDataLabel label a).Moved n (s'.defineDataLabel label a) where
  dataLabels := by simp [Symbols.defineDataLabel, h.dataLabels]
  labels := h.labels

theorem moved_self (h : ∀ l i, s.index? l = some i → i ≤ n) : s.Moved n s where
  dataLabels := rfl
  labels := by
    intro l
    cases hl : s.index? l with
    | none => exact .none
    | some i => exact .some (leadsTo_self (h l i hl))

end Symbols

namespace Draft

/-- The second draft has one line more, which stands after the front lines. -/
structure Inserted (front : List Text) (line : Text) (d d' : Draft) : Prop where
  segment : d'.segment = d.segment
  strings : d'.strings = d.strings
  cursor : d'.cursor = d.cursor
  lines : ∃ back, d.lines = front ++ back ∧ d'.lines = front ++ line :: back
  symbols : d.symbols.Moved front.length d'.symbols

variable {front : List Text} {line : Text} {d d' : Draft}

theorem inserted_here (d : Draft) (line : Text)
    (h : ∀ l i, d.symbols.index? l = some i → i ≤ d.lines.length) :
    d.Inserted d.lines line { d with lines := d.lines ++ [line] } where
  segment := rfl
  strings := rfl
  cursor := rfl
  lines := ⟨[], by simp⟩
  symbols := Symbols.moved_self h

theorem Inserted.leadsTo (h : d.Inserted front line d') :
    LeadsTo front.length d.lines.length d'.lines.length := by
  obtain ⟨back, hd, hd'⟩ := h.lines
  rw [hd, hd']
  unfold LeadsTo renumber
  simp only [List.length_append, List.length_cons]
  split_ifs <;> omega

theorem Inserted.define (h : d.Inserted front line d') (label : Text) :
    (d.define label).Inserted front line (d'.define label) := by
  unfold Draft.define
  rw [h.segment]
  cases d.segment with
  | text => exact { h with segment := rfl, symbols := h.symbols.defineLabel label h.leadsTo }
  | data =>
    have hsymbols := h.symbols.defineDataLabel label d.cursor
    exact { h with segment := rfl, symbols := h.cursor ▸ hsymbols }

theorem Inserted.store (h : d.Inserted front line d') (directive : Directive) :
    (d.store directive).Inserted front line (d'.store directive) := by
  cases directive with
  | asciiz payload =>
    exact { h with
      strings := by simp [Draft.store, h.strings, h.cursor]
      cursor := by simp [Draft.store, h.cursor] }
  | word count => exact { h with cursor := by simp [Draft.store, h.cursor] }

theorem Inserted.place (h : d.Inserted front line d') (t : Text) :
    (d.place t).Inserted front line (d'.place t) := by
  unfold Draft.place
  rw [h.segment]
  cases d.segment with
  | text =>
    obtain ⟨back, hd, hd'⟩ := h.lines
    exact { h with segment := rfl, lines := ⟨back ++ [t], by simp [hd], by simp [hd']⟩ }
  | data =>
    cases Directive.ofText? t with
    | none => exact h
    | some directive => exact h.store directive

theorem Inserted.content (h : d.Inserted front line d') (t : Text) :
    (d.content t).Inserted front line (d'.content t) := by
  unfold Draft.content
  split
  · exact h.define _
  · exact (h.define _).place _
  · exact h.place t

theorem Inserted.read (h : d.Inserted front line d') (raw : Text) :
    (d.read raw).Inserted front line (d'.read raw) := by
  by_cases hraw : Plain (strip raw)
  · rw [read_plain d hraw, read_plain d' hraw]
    exact h.content _
  · rw [read_not_plain d hraw, read_not_plain d' hraw]
    exact { h with segment := by rw [h.segment] }

theorem Inserted.foldl (h : d.Inserted front line d') (lines : List Text) :
    (lines.foldl Draft.read d).Inserted front line (lines.foldl Draft.read d') := by
  induction lines generalizing d d' with
  | nil => exact h
  | cons raw lines ih => exact ih (h.read raw)

theorem inserted_ofLines {before : List Text} (hseg : before.foldl segmentAfter .text = .text)
    {line : Text} (hplain : Plain (strip line)) (hlabel : labelled? (strip line) = none)
    (after : List Text) :
    (ofLines (before ++ after)).Inserted (ofLines before).lines (strip line)
      (ofLines (before ++ line :: after)) := by
  have hread := read_code (ofLines before) ((ofLines_segment before).trans hseg) hplain hlabel
  have hhere := inserted_here (ofLines before) (strip line) fun l i hl =>
    (index?_ofLines_range hl).2
  simp only [ofLines, List.foldl_append, List.foldl_cons] at hread hhere ⊢
  rw [hread]
  exact hhere.foldl after

end Draft

def Operation.idle : Operation := .move (some Register.zero) (some Register.zero)

def idleLine : Text := ofString "move $zero, $zero"

/-- The second program has one idle instruction more, at the index `n`. -/
structure Program.Inserted (n : Int) (p p' : Program) : Prop where
  strings : p'.strings = p.strings
  idle : p'.at? n = some ⟨idleLine, .idle⟩
  moved : ∀ i, Option.Rel (Instruction.Moved n) (p.at? i) (p'.at? (renumber n i))

theorem Operation.ofText?_idleLine (s : Symbols) : ofText? s idleLine = some .idle := by
  have hkind : Kind.named? (Text.lower (idleLine.takeWhile fun c => !Text.isBlank c)) =
      some .move := by decide +kernel
  have htail : idleLine.dropWhile (fun c => !Text.isBlank c) = ' ' :: ofString "$zero, $zero" := by
    decide +kernel
  have hmove : move? (Operand.list (Text.trim (' ' :: ofString "$zero, $zero"))) = some .idle := by
    decide +kernel
  rw [ofText?, hkind, htail]
  exact hmove

theorem Instruction.decode_idleLine (s : Symbols) : decode s idleLine = ⟨idleLine, .idle⟩ := by
  have htrim : Text.trim idleLine = idleLine := by decide +kernel
  rw [decode, htrim, Operation.ofText?_idleLine]
  rfl

theorem getElem?_append_cons {α : Type} (front back : List α) (x : α) (i : Nat) :
    (front ++ x :: back)[if i < front.length then i else i + 1]? = (front ++ back)[i]? := by
  split_ifs with hi
  · rw [List.getElem?_append_left hi, List.getElem?_append_left hi]
  · rw [List.getElem?_append_right (by omega), List.getElem?_append_right (by omega),
      Nat.succ_sub (by omega), List.getElem?_cons_succ]

theorem Draft.at?_program (d : Draft) (i : Int) :
    d.program.at? i =
      if 0 ≤ i then d.lines[i.toNat]?.map (Instruction.decode d.symbols) else none := by
  unfold Program.at? Draft.program
  rw [List.getElem?_map]

theorem toNat_renumber {n : Nat} {i : Int} (hi : 0 ≤ i) :
    (renumber n i).toNat = if i.toNat < n then i.toNat else i.toNat + 1 := by
  unfold renumber
  split_ifs <;> omega

theorem renumber_nonneg_iff {n : Nat} (i : Int) : 0 ≤ renumber n i ↔ 0 ≤ i := by
  unfold renumber
  split_ifs <;> omega

theorem Draft.Inserted.program {front : List Text} {d d' : Draft}
    (h : d.Inserted front idleLine d') : d.program.Inserted front.length d'.program := by
  obtain ⟨back, hd, hd'⟩ := h.lines
  refine ⟨h.strings, ?_, fun i => ?_⟩
  · rw [Draft.at?_program, if_pos (Int.natCast_nonneg _), hd']
    simp [Instruction.decode_idleLine]
  · rw [Draft.at?_program, Draft.at?_program, hd, hd']
    simp only [renumber_nonneg_iff]
    split_ifs with hi
    · rw [toNat_renumber hi, getElem?_append_cons]
      cases (front ++ back)[i.toNat]? with
      | none => exact .none
      | some line => exact .some (Instruction.decode_moved h.symbols line)
    · exact .none

theorem not_mem_of_mem_splitOn {t line : Text} {c : Char} (h : line ∈ t.splitOn c) :
    c ∉ line := by
  induction t generalizing line with
  | nil => simp_all
  | cons x t ih =>
    rw [List.splitOn_cons_eq_if_modifyHead] at h
    split_ifs at h with hx
    · rcases List.mem_cons.mp h with rfl | h
      · exact List.not_mem_nil
      · exact ih h
    · obtain ⟨first, rest, ht⟩ := List.exists_cons_of_ne_nil (List.splitOn_ne_nil c t)
      rw [ht, List.modifyHead_cons, List.mem_cons] at h
      rcases h with rfl | h
      · have hfirst : c ∉ first := ih (by simp [ht])
        rw [List.mem_cons, not_or]
        exact ⟨fun hc => hx (by simp [hc]), hfirst⟩
      · exact ih (by simp [ht, h])

theorem splitOn_insert {source : Text} {before after : List Text}
    (hsplit : source.splitOn '\n' = before ++ after) {line : Text} (hline : '\n' ∉ line) :
    (['\n'].intercalate (before ++ line :: after)).splitOn '\n' = before ++ line :: after := by
  have hlines : ∀ l ∈ before ++ after, '\n' ∉ l := by
    rw [← hsplit]
    exact fun l => not_mem_of_mem_splitOn
  apply List.splitOn_intercalate '\n'
  · intro l hl
    simp only [List.mem_append, List.mem_cons] at hl hlines
    rcases hl with hl | rfl | hl
    · exact hlines l (.inl hl)
    · exact hline
    · exact hlines l (.inr hl)
  · simp

theorem load_insert {source : Text} {p : Program} (hload : load source = .ok p)
    {before after : List Text} (hsplit : source.splitOn '\n' = before ++ after)
    (hseg : before.foldl Draft.segmentAfter .text = .text) :
    ∃ p', load (['\n'].intercalate (before ++ idleLine :: after)) = .ok p' ∧
      p.Inserted (Draft.ofLines before).lines.length p' := by
  have hstrip : Draft.strip idleLine = idleLine := by decide +kernel
  have hplain : Draft.Plain idleLine := by decide +kernel
  have hlabel : Draft.labelled? idleLine = none := by decide +kernel
  have hdraft := Draft.inserted_ofLines hseg (hstrip.symm ▸ hplain) (hstrip.symm ▸ hlabel) after
  rw [hstrip] at hdraft
  have hline : '\n' ∉ idleLine := by decide +kernel
  have hlines := splitOn_insert hsplit hline
  obtain ⟨back, -, hback⟩ := hdraft.lines
  refine ⟨_, load_of_lines (congrArg Draft.ofLines hlines) (by simp [hback]), ?_⟩
  rw [load_eq_ok hload, hsplit]
  exact hdraft.program

end MipsStepper
