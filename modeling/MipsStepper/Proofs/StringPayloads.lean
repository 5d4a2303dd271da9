import MipsStepper.Proofs.Storage

/-!
# Payloads of string directives

To expand the newlines of a text first and its quotes afterwards is to expand
both in one pass from the left. Neither pass gets in the way of the other:
their escapes share no character but the backslash that starts them, and the
first pass puts no quote behind a backslash and takes none away. So a string
directive stores the text between its quotes with both escapes expanded, in no
more bytes than that text has.
-/

set_option autoImplicit false

namespace MipsStepper
open Text (ofString)

namespace Directive

/-- Both escapes are expanded in one pass from the left. Every other character
stays, also a backslash before another one. -/
def expandEscapes : Text → Text
  | '\\' :: 'n' :: t => '\n' :: expandEscapes t
  | '\\' :: '"' :: t => '"' :: expandEscapes t
  | c :: t => c :: expandEscapes t
  | [] => []

/-- The lines of string directives with the text between the quotes: the keyword
in any case, blanks, and a quote, up to the last quote, which ends the line. -/
inductive Quotes : Text → Text → Prop
  | line {keyword gap raw : Text} (hkeyword : Text.lower keyword = ofString ".asciiz")
      (hgap : gap ≠ []) (hblank : ∀ c ∈ gap, Text.isBlank c = true) :
      Quotes (keyword ++ (gap ++ '"' :: (raw ++ ['"']))) raw

theorem unescape_eq_expandEscapes (raw : Text) : unescape raw = expandEscapes raw := by
  unfold unescape
  fun_induction expandEscapes raw with
  | case1 t ih => rw [expandNewlines, expandQuotes_cons (by simp), ih]
  | case2 t ih =>
    -- The first pass reads the two characters apart and leaves them together.
    rw [expandNewlines_cons (by simp), expandNewlines_cons (by simp), expandQuotes, ih]
  | case3 c t hnewline hquote ih =>
    have hfirst : ¬ (c = '\\' ∧ t.head? = some 'n') := by
      rintro ⟨rfl, hhead⟩
      obtain ⟨u, rfl⟩ := List.head?_eq_some_iff.mp hhead
      exact hnewline u rfl rfl
    have hsecond : ¬ (c = '\\' ∧ (expandNewlines t).head? = some '"') := by
      rintro ⟨rfl, hhead⟩
      obtain ⟨u, rfl⟩ := List.head?_eq_some_iff.mp (head?_expandNewlines (by decide) hhead)
      exact hquote u rfl rfl
    rw [expandNewlines_cons hfirst, expandQuotes_cons hsecond, ih]
  | case4 => rfl

theorem payload?_eq_some_iff {line payload : Text} :
    payload? line = some payload ↔ ∃ raw, Quotes line raw ∧ payload = unescape raw := by
  rw [payload?, Option.map_eq_some_iff]
  constructor
  · rintro ⟨raw, hraw, rfl⟩
    obtain ⟨x, hargument, hquoted⟩ := Option.bind_eq_some_iff.mp hraw
    obtain ⟨keyword, gap, rfl, hkeyword, hgap, hblank, -⟩ := argument?_eq_some_iff.mp hargument
    rw [quoted?_eq_some_iff.mp hquoted]
    exact ⟨raw, .line hkeyword hgap hblank, rfl⟩
  · rintro ⟨raw, hline, rfl⟩
    obtain ⟨hkeyword, hgap, hblank⟩ := hline
    refine ⟨raw, Option.bind_eq_some_iff.mpr ⟨_, argument?_eq_some_iff.mpr ?_,
      quoted?_eq_some_iff.mpr rfl⟩, rfl⟩
    refine ⟨_, _, rfl, hkeyword, hgap, hblank, ?_⟩
    rintro c ⟨rfl⟩
    decide

/-- The two passes over any text are one pass that expands both escapes, and it
makes no text longer. The payload of a line is there exactly if the line has a
text between quotes, and then it is that text with its escapes expanded. -/
theorem payload_one_pass :
    (∀ raw, unescape raw = expandEscapes raw ∧
      Text.byteLength (unescape raw) ≤ Text.byteLength raw) ∧
    ∀ line payload, payload? line = some payload ↔
      ∃ raw, Quotes line raw ∧ payload = expandEscapes raw ∧
        Text.byteLength payload ≤ Text.byteLength raw := by
  refine ⟨fun raw => ⟨unescape_eq_expandEscapes raw, byteLength_unescape_le raw⟩,
    fun line payload => ?_⟩
  rw [payload?_eq_some_iff]
  constructor
  · rintro ⟨raw, hline, rfl⟩
    exact ⟨raw, hline, unescape_eq_expandEscapes raw, byteLength_unescape_le raw⟩
  · rintro ⟨raw, hline, rfl, -⟩
    exact ⟨raw, hline, (unescape_eq_expandEscapes raw).symm⟩

/-- Backslashes in a row, before each escape and at the end. -/
example : payload? (ofString ".ASCIIZ \t\"\\\\n\\\\\"\\\\t\\\"\\\"") =
    some (ofString "\\\n\\\"\\\\t\"\\") := by
  decide +kernel

end Directive

end MipsStepper
