import Mathlib.Data.List.TakeWhile
import MipsStepper.Proofs.Escapes
import MipsStepper.Proofs.Labels

/-!
# What the lines of a source store

The storage directives of a source are said of its lines alone: a line of the
data segment stores the directive that follows its label, if there is one.
The draft agrees with this, line by line, and no directive takes more than two
bytes for each byte of its line.
-/

set_option autoImplicit false

namespace MipsStepper
open Text (ofString)

namespace Directive

theorem argument?_eq_some_iff {keyword t x : Text} : argument? keyword t = some x ↔
    ∃ front gap, t = front ++ (gap ++ x) ∧ Text.lower front = keyword ∧ gap ≠ [] ∧
      (∀ c ∈ gap, Text.isBlank c = true) ∧ ∀ c, x.head? = some c → Text.isBlank c = false := by
  constructor
  · intro h
    unfold argument? at h
    split_ifs at h with hfront
    split at h
    · rename_i c tail htail
      split_ifs at h with hblank
      cases h
      refine ⟨t.take keyword.length, c :: tail.takeWhile Text.isBlank, ?_,
        of_decide_eq_true hfront, by simp, ?_, ?_⟩
      · rw [List.cons_append, List.takeWhile_append_dropWhile, ← htail, List.take_append_drop]
      · exact List.forall_mem_cons.mpr ⟨hblank, List.all_eq_true.mp List.all_takeWhile⟩
      · intro d hd
        have hhead := List.head?_dropWhile_not Text.isBlank tail
        rw [hd] at hhead
        simpa using hhead
    · cases h
  · rintro ⟨front, gap, rfl, rfl, hgap, hblank, hx⟩
    have hlength : (Text.lower front).length = front.length := List.length_map _
    obtain ⟨c, gap, rfl⟩ := List.exists_cons_of_ne_nil hgap
    obtain ⟨hc, hgap⟩ := List.forall_mem_cons.mp hblank
    have hdrop : (gap ++ x).dropWhile Text.isBlank = x := by
      rw [List.dropWhile_append_of_pos hgap]
      cases x with
      | nil => rfl
      | cons d x => simp [hx d rfl]
    simp [argument?, Text.startsWith, hlength, hc, hdrop]

theorem argument?_eq_some {keyword t x : Text} (h : argument? keyword t = some x) :
    x.Sublist t ∧ keyword.length + 1 + x.length ≤ t.length := by
  obtain ⟨front, gap, rfl, rfl, hgap, -, -⟩ := argument?_eq_some_iff.mp h
  have hlength := List.length_pos_iff.mpr hgap
  refine ⟨(List.sublist_append_right gap x).trans (List.sublist_append_right front _), ?_⟩
  simp only [Text.lower, List.length_map, List.length_append]
  omega

theorem quoted?_eq_some_iff {t x : Text} : quoted? t = some x ↔ t = '"' :: (x ++ ['"']) := by
  constructor
  · intro h
    unfold quoted? at h
    split at h
    · rename_i tail
      split at h
      · rename_i inner hinner
        cases h
        have htail : tail = inner.reverse ++ ['"'] := by simpa using congrArg List.reverse hinner
        rw [htail]
      · cases h
    · cases h
  · rintro rfl
    simp [quoted?]

theorem quoted?_sublist {t x : Text} (h : quoted? t = some x) : x.Sublist t := by
  rw [quoted?_eq_some_iff.mp h]
  exact (List.sublist_append_left x ['"']).cons _

theorem payload?_eq_some {t p : Text} (h : payload? t = some p) :
    ∃ x : Text, x.Sublist t ∧ x.length < t.length ∧ p = unescape x := by
  obtain ⟨x, hx, rfl⟩ := Option.map_eq_some_iff.mp h
  obtain ⟨y, hy, hquoted⟩ := Option.bind_eq_some_iff.mp hx
  obtain ⟨hyt, hroom⟩ := argument?_eq_some hy
  have hxy := quoted?_sublist hquoted
  have hlength := hxy.length_le
  exact ⟨x, hxy.trans hyt, by omega, rfl⟩

/-- Every value takes a character and all but one take a comma before them. -/
theorem countP_pieces_le (pieces : List Text) :
    2 * pieces.countP (fun v => Text.trim v ≠ []) ≤ ([','].intercalate pieces).length + 1 := by
  induction pieces with
  | nil => simp
  | cons v rest ih =>
    have hv : (if Text.trim v ≠ [] then 1 else 0) ≤ v.length := by
      split_ifs with h
      · exact List.length_pos_iff.mpr fun hnil => h (by rw [hnil]; rfl)
      · exact Nat.zero_le _
    cases rest with
    | nil =>
      simp only [List.countP_cons, List.countP_nil, decide_eq_true_eq]
      simp only [List.intercalate_singleton]
      split_ifs at hv ⊢ <;> omega
    | cons w rest =>
      rw [List.intercalate_cons_cons, List.countP_cons]
      simp only [List.length_append, List.length_singleton, decide_eq_true_eq]
      split_ifs at hv ⊢ <;> omega

theorem wordCount?_le {t : Text} {n : Nat} (h : wordCount? t = some n) :
    4 * max 1 n ≤ 2 * t.length := by
  unfold wordCount? at h
  split at h
  · cases h
  · rename_i values hvalues
    have hlength := (argument?_eq_some hvalues).2
    have hkeyword : (ofString ".word").length = 5 := by decide +kernel
    have hcount := countP_pieces_le (values.splitOn ',')
    rw [List.intercalate_splitOn] at hcount
    split_ifs at h with hblank
    cases h
    omega

theorem ofText?_eq_some {t : Text} {d : Directive} (h : ofText? t = some d) :
    (∃ p, payload? t = some p ∧ d = .asciiz p) ∨ ∃ n, wordCount? t = some n ∧ d = .word n := by
  rcases Option.or_eq_some_iff.mp h with h | ⟨_, h⟩
  · obtain ⟨p, hp, rfl⟩ := Option.map_eq_some_iff.mp h
    exact .inl ⟨p, hp, rfl⟩
  · obtain ⟨n, hn, rfl⟩ := Option.map_eq_some_iff.mp h
    exact .inr ⟨n, hn, rfl⟩

theorem size_le_of_ofText? {t : Text} {d : Directive} (h : ofText? t = some d) :
    d.size ≤ 2 * Text.byteLength t := by
  have hlength := Text.length_le_byteLength t
  rcases ofText?_eq_some h with ⟨p, hp, rfl⟩ | ⟨n, hn, rfl⟩
  · obtain ⟨x, hx, hroom, rfl⟩ := payload?_eq_some hp
    have hbytes := (byteLength_unescape_le x).trans (Text.byteLength_le_of_sublist hx)
    simp only [size]
    omega
  · have hwords := wordCount?_le hn
    simp only [size]
    omega

end Directive

namespace Draft

def body (line : Text) : Text :=
  match labelled? line with
  | some (_, rest) => rest
  | none => line

def directive? (raw : Text) : Option Directive :=
  if Plain (strip raw) then Directive.ofText? (body (strip raw)) else none

def storedBy (s : Segment) (raw : Text) : Option Directive :=
  match s with
  | .text => none
  | .data => directive? raw

def storage : Segment → List Text → List Directive
  | _, [] => []
  | s, raw :: rest => (storedBy s raw).toList ++ storage (segmentAfter s raw) rest

theorem storage_append (s : Segment) (before after : List Text) :
    storage s (before ++ after) =
      storage s before ++ storage (before.foldl segmentAfter s) after := by
  induction before generalizing s with
  | nil => rfl
  | cons raw before ih => simp [storage, ih]

theorem storage_concat (s : Segment) (lines : List Text) (raw : Text) :
    storage s (lines ++ [raw]) =
      storage s lines ++ (storedBy (lines.foldl segmentAfter s) raw).toList := by
  simp [storage_append, storage]

theorem labelled?_sublist {line name rest : Text} (h : labelled? line = some (name, rest)) :
    rest.Sublist line := by
  unfold labelled? at h
  split at h
  · rename_i tail htail
    dsimp only at h
    split_ifs at h with hname
    cases h
    have hsuffix := htail ▸ (line.dropWhile_suffix Operand.isLabelChar).sublist
    exact (Text.trim_sublist tail).trans ((List.sublist_cons_self _ _).trans hsuffix)
  · cases h

theorem body_sublist (line : Text) : (body line).Sublist line := by
  unfold body
  split
  · rename_i h
    exact labelled?_sublist h
  · exact List.Sublist.refl line

theorem strip_sublist (raw : Text) : (strip raw).Sublist raw :=
  (Text.trim_sublist _).trans (List.takeWhile_sublist _)

theorem hash_not_mem_strip (raw : Text) : '#' ∉ strip raw := by
  intro h
  have hfront := (Text.trim_sublist _).subset h
  simpa using List.mem_takeWhile_imp hfront

theorem strip_of_not_mem {raw : Text} (h : '#' ∉ raw) : strip raw = Text.trim raw := by
  have hwhole : raw.takeWhile (· ≠ '#') = raw := by
    rw [List.takeWhile_eq_self_iff]
    intro c hc
    rw [decide_eq_true_eq]
    exact ne_of_mem_of_not_mem hc h
  rw [strip, hwhole]

theorem directive?_eq_some {raw : Text} {d : Directive} (h : directive? raw = some d) :
    Directive.ofText? (body (strip raw)) = some d := by
  unfold directive? at h
  split_ifs at h
  exact h

theorem directive?_size_le {raw : Text} {d : Directive} (h : directive? raw = some d) :
    d.size ≤ 2 * Text.byteLength raw := by
  have hsize := Directive.size_le_of_ofText? (directive?_eq_some h)
  have hbody := Text.byteLength_le_of_sublist ((body_sublist _).trans (strip_sublist raw))
  omega

theorem directive?_representable {raw p : Text} (h : directive? raw = some (.asciiz p)) :
    Directive.Representable p := by
  rcases Directive.ofText?_eq_some (directive?_eq_some h) with ⟨p, hp, ⟨⟩⟩ | ⟨_, _, ⟨⟩⟩
  obtain ⟨x, hx, _, rfl⟩ := Directive.payload?_eq_some hp
  apply Directive.unescape_representable
  intro hmem
  exact hash_not_mem_strip raw ((hx.trans (body_sublist _)).subset hmem)

section Reading
variable (d : Draft) (raw : Text)

theorem define_strings (label : Text) : (d.define label).strings = d.strings := by
  unfold define
  split <;> rfl

theorem define_cursor (label : Text) : (d.define label).cursor = d.cursor := by
  unfold define
  split <;> rfl

theorem address?_define (label l : Text) :
    (d.define label).symbols.address? l =
      if d.segment = .data ∧ label = l ∧ d.symbols.address? l = none then some d.cursor
      else d.symbols.address? l := by
  unfold define
  cases hs : d.segment with
  | text => simp [Symbols.address?, Symbols.defineLabel]
  | data =>
    rw [Symbols.address?_defineDataLabel]
    by_cases hl : label = l <;> simp [hl]

def defineFront (line : Text) : Draft := (labelled? line).elim d fun front => d.define front.1

theorem defineFront_strings (line : Text) : (d.defineFront line).strings = d.strings := by
  unfold defineFront
  cases labelled? line with
  | none => rfl
  | some front => exact define_strings d front.1

theorem defineFront_cursor (line : Text) : (d.defineFront line).cursor = d.cursor := by
  unfold defineFront
  cases labelled? line with
  | none => rfl
  | some front => exact define_cursor d front.1

theorem address?_defineFront (line l : Text) :
    (d.defineFront line).symbols.address? l =
      if d.segment = .data ∧ (labelled? line).map Prod.fst = some l ∧ d.symbols.address? l = none
      then some d.cursor else d.symbols.address? l := by
  unfold defineFront
  cases labelled? line with
  | none => simp
  | some front => simp [address?_define]

/-- A label alone on its line places nothing. In the data segment this is no
exception, since the empty text is no directive. -/
theorem content_data {line : Text} (h : d.segment = .data) :
    d.content line =
      (Directive.ofText? (body line)).elim (d.defineFront line) (d.defineFront line).store := by
  have hempty : Directive.ofText? [] = none := by decide +kernel
  unfold content body defineFront
  split
  · simp [*]
  · rename_i front _ hlabel
    simp [hlabel, place, define_segment, h]
  · rename_i hlabel
    simp [hlabel, place, h]

theorem content_text {line : Text} (h : d.segment = .text) :
    (d.content line).strings = d.strings ∧ (d.content line).cursor = d.cursor := by
  unfold content
  split
  · exact ⟨define_strings d _, define_cursor d _⟩
  · simp [place, define_segment, h, define_strings, define_cursor]
  · simp [place, h]

theorem address?_content (line l : Text) :
    (d.content line).symbols.address? l = (d.defineFront line).symbols.address? l := by
  unfold content defineFront
  split <;> simp [*, place_symbols]

theorem read_strings :
    (d.read raw).strings =
      match storedBy d.segment raw with
      | some (.asciiz payload) => d.strings.insert d.cursor payload
      | _ => d.strings := by
  by_cases hplain : Plain (strip raw)
  · rw [read_plain d hplain]
    cases hs : d.segment with
    | text => exact (content_text d hs).1
    | data =>
      rw [content_data d hs, storedBy, directive?, if_pos hplain]
      rcases Directive.ofText? (body (strip raw)) with _ | ⟨payload⟩ | ⟨count⟩
      · exact defineFront_strings d _
      · simp [store, defineFront_strings, defineFront_cursor]
      · simp [store, defineFront_strings]
  · rw [read_not_plain d hplain]
    cases d.segment <;> simp [storedBy, directive?, hplain]

theorem read_cursor :
    (d.read raw).cursor =
      (storedBy d.segment raw).elim d.cursor fun x => Word.wrap (d.cursor.toInt + x.size) := by
  by_cases hplain : Plain (strip raw)
  · rw [read_plain d hplain]
    cases hs : d.segment with
    | text => exact (content_text d hs).2
    | data =>
      rw [content_data d hs, storedBy, directive?, if_pos hplain]
      rcases Directive.ofText? (body (strip raw)) with _ | ⟨payload⟩ | ⟨count⟩
      · exact defineFront_cursor d _
      · simp [store, defineFront_cursor]
      · simp [store, defineFront_cursor]
  · rw [read_not_plain d hplain]
    cases d.segment <;> simp [storedBy, directive?, hplain]

/-- What one line does to the data labels. The first definition stands. -/
theorem address?_read (l : Text) :
    (d.read raw).symbols.address? l =
      if d.segment = .data ∧ definedLabel? raw = some l ∧ d.symbols.address? l = none
      then some d.cursor else d.symbols.address? l := by
  by_cases hplain : Plain (strip raw)
  · simp only [read_plain d hplain, address?_content, address?_defineFront, definedLabel?, hplain,
      if_true]
  · simp [read_not_plain d hplain, definedLabel?, hplain]

end Reading

theorem storedBy_eq_some {s : Segment} {raw : Text} {x : Directive} (h : storedBy s raw = some x) :
    directive? raw = some x := by
  cases s with
  | text => cases h
  | data => exact h

theorem string_origin {lines : List Text} {a : Word} {t : Text}
    (h : (ofLines lines).strings[a]? = some t) :
    ∃ raw ∈ lines, directive? raw = some (.asciiz t) := by
  induction lines using List.reverseRecOn with
  | nil => simp [ofLines] at h
  | append_singleton lines raw ih =>
    have hold : (ofLines lines).strings[a]? = some t →
        ∃ raw' ∈ lines ++ [raw], directive? raw' = some (.asciiz t) := by
      intro hold
      obtain ⟨raw', hmem, hraw'⟩ := ih hold
      exact ⟨raw', List.mem_append_left _ hmem, hraw'⟩
    rw [ofLines_concat, read_strings] at h
    split at h
    · rename_i payload hstored
      rw [Std.ExtTreeMap.getElem?_insert] at h
      split_ifs at h with hcursor
      · cases h
        exact ⟨raw, by simp, storedBy_eq_some hstored⟩
      · exact hold h
    · exact hold h

end Draft

end MipsStepper
