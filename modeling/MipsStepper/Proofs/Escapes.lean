import Mathlib.Data.List.Infix
import MipsStepper.Assembly.Directive

/-!
# Escapes in string literals

The two passes of `unescape` undo the escaping of newlines and quotes, for
every text that has no backslash before the letter `n`. No other text is ever
the value of a literal, since the first pass leaves no such pair and the second
makes none.
-/

set_option autoImplicit false

namespace MipsStepper.Directive

def escape : Text → Text
  | [] => []
  | '\n' :: t => '\\' :: 'n' :: escape t
  | '"' :: t => '\\' :: '"' :: escape t
  | c :: t => c :: escape t

/-- What is left of the escapes once newlines are expanded. -/
def escapeQuotes : Text → Text
  | [] => []
  | '"' :: t => '\\' :: '"' :: escapeQuotes t
  | c :: t => c :: escapeQuotes t

def HasNewlineEscape (t : Text) : Prop := ['\\', 'n'] <:+: t

def Representable (t : Text) : Prop := '#' ∉ t ∧ ¬ HasNewlineEscape t

instance (t : Text) : Decidable (HasNewlineEscape t) := inferInstanceAs (Decidable (_ <:+: _))

instance (t : Text) : Decidable (Representable t) := inferInstanceAs (Decidable (_ ∧ _))

theorem hasNewlineEscape_cons {c : Char} {t : Text} :
    HasNewlineEscape (c :: t) ↔ c = '\\' ∧ t.head? = some 'n' ∨ HasNewlineEscape t := by
  have hhead : ['n'] <+: t ↔ t.head? = some 'n' := by
    cases t <;> simp [List.prefix_cons_iff, eq_comm]
  rw [HasNewlineEscape, List.infix_cons_iff, List.cons_prefix_cons, hhead, eq_comm]
  rfl

theorem expandNewlines_cons {c : Char} {t : Text} (h : ¬ (c = '\\' ∧ t.head? = some 'n')) :
    expandNewlines (c :: t) = c :: expandNewlines t := by
  rw [expandNewlines]
  rintro u rfl rfl
  exact h ⟨rfl, rfl⟩

theorem expandQuotes_cons {c : Char} {t : Text} (h : ¬ (c = '\\' ∧ t.head? = some '"')) :
    expandQuotes (c :: t) = c :: expandQuotes t := by
  rw [expandQuotes]
  rintro u rfl rfl
  exact h ⟨rfl, rfl⟩

section RoundTrip

theorem head?_escape {t : Text} (h : (escape t).head? = some 'n') : t.head? = some 'n' := by
  fun_cases escape t <;> simp_all [escape]

theorem head?_escapeQuotes (t : Text) : (escapeQuotes t).head? ≠ some '"' := by
  fun_cases escapeQuotes t with
  | case1 => simp
  | case2 t => simp
  | case3 c t hc => simpa using hc

/-- The first pass finds the newlines and nothing else, since an escaped text
has an `n` after a backslash only where a newline was. -/
theorem expandNewlines_escape {t : Text} (h : ¬ HasNewlineEscape t) :
    expandNewlines (escape t) = escapeQuotes t := by
  fun_induction escape t with
  | case1 => rfl
  | case2 t ih =>
    have ht := ih (not_or.mp (hasNewlineEscape_cons.not.mp h)).2
    rw [expandNewlines, ht, escapeQuotes]
    simp
  | case3 t ih =>
    have ht := ih (not_or.mp (hasNewlineEscape_cons.not.mp h)).2
    rw [expandNewlines_cons (by simp), expandNewlines_cons (by simp), ht, escapeQuotes]
  | case4 c t hn hq ih =>
    obtain ⟨hpair, ht⟩ := not_or.mp (hasNewlineEscape_cons.not.mp h)
    rw [expandNewlines_cons fun hs => hpair ⟨hs.1, head?_escape hs.2⟩, ih ht, escapeQuotes]
    exact hq

theorem expandQuotes_escapeQuotes (t : Text) : expandQuotes (escapeQuotes t) = t := by
  fun_induction escapeQuotes t with
  | case1 => rfl
  | case2 t ih => rw [expandQuotes, ih]
  | case3 c t hc ih => rw [expandQuotes_cons fun hs => head?_escapeQuotes t hs.2, ih]

theorem unescape_escape {t : Text} (h : ¬ HasNewlineEscape t) : unescape (escape t) = t := by
  rw [unescape, expandNewlines_escape h, expandQuotes_escapeQuotes]

theorem mem_escape {c : Char} {t : Text} (h : c ∈ escape t) :
    c ≠ '\n' ∧ (c ∈ t ∨ c = '\\' ∨ c = 'n') := by
  fun_induction escape t with
  | case1 => cases h
  | case2 t ih => grind
  | case3 t ih => grind
  | case4 c' t hn hq ih => grind

end RoundTrip

section Values

theorem head?_expandNewlines {t : Text} {c : Char} (hc : c ≠ '\n')
    (h : (expandNewlines t).head? = some c) : t.head? = some c := by
  fun_cases expandNewlines t with
  | case1 t =>
    rw [expandNewlines, List.head?_cons, Option.some.injEq] at h
    exact absurd h.symm hc
  | case2 d t hd => simpa [expandNewlines] using h
  | case3 => cases h

theorem head?_expandQuotes {t : Text} (h : (expandQuotes t).head? = some 'n') :
    t.head? = some 'n' := by
  fun_cases expandQuotes t <;> simp_all [expandQuotes]

theorem expandNewlines_complete (t : Text) : ¬ HasNewlineEscape (expandNewlines t) := by
  fun_induction expandNewlines t with
  | case1 t ih => simpa [hasNewlineEscape_cons] using ih
  | case2 c t hc ih =>
    rw [hasNewlineEscape_cons]
    rintro (⟨rfl, hn⟩ | h)
    · obtain ⟨u, rfl⟩ := List.head?_eq_some_iff.mp (head?_expandNewlines (by decide) hn)
      exact hc u rfl rfl
    · exact ih h
  | case3 => simp [HasNewlineEscape]

/-- A quote that was escaped parts what stands before it from what follows,
so the second pass brings no backslash and `n` together. -/
theorem expandQuotes_not_newlineEscape {t : Text} (h : ¬ HasNewlineEscape t) :
    ¬ HasNewlineEscape (expandQuotes t) := by
  fun_induction expandQuotes t with
  | case1 t ih =>
    have ht : ¬ HasNewlineEscape t := fun hs =>
      h (hasNewlineEscape_cons.mpr (.inr (hasNewlineEscape_cons.mpr (.inr hs))))
    simpa [hasNewlineEscape_cons] using ih ht
  | case2 c t hc ih =>
    obtain ⟨hpair, ht⟩ := not_or.mp (hasNewlineEscape_cons.not.mp h)
    rw [hasNewlineEscape_cons]
    rintro (⟨rfl, hn⟩ | hs)
    · exact hpair ⟨rfl, head?_expandQuotes hn⟩
    · exact ih ht hs
  | case3 => exact h

theorem mem_expandNewlines {c : Char} {t : Text} (h : c ∈ expandNewlines t) : c = '\n' ∨ c ∈ t := by
  fun_induction expandNewlines t with
  | case1 t ih => grind
  | case2 c' t hc ih => grind
  | case3 => cases h

theorem mem_expandQuotes {c : Char} {t : Text} (h : c ∈ expandQuotes t) : c ∈ t := by
  fun_induction expandQuotes t with
  | case1 t ih => grind
  | case2 c' t hc ih => grind
  | case3 => cases h

theorem unescape_representable {t : Text} (h : '#' ∉ t) : Representable (unescape t) := by
  refine ⟨fun hmem => ?_, expandQuotes_not_newlineEscape (expandNewlines_complete t)⟩
  rcases mem_expandNewlines (mem_expandQuotes hmem) with hn | ht
  · cases hn
  · exact h ht

theorem byteLength_expandNewlines_le (t : Text) :
    Text.byteLength (expandNewlines t) ≤ Text.byteLength t := by
  fun_induction expandNewlines t with
  | case1 t ih =>
    have hwidth : '\n'.utf8Size ≤ 'n'.utf8Size := by decide
    simp only [Text.byteLength]
    omega
  | case2 c t hc ih =>
    simp only [Text.byteLength]
    omega
  | case3 => exact Nat.le_refl _

theorem byteLength_expandQuotes_le (t : Text) :
    Text.byteLength (expandQuotes t) ≤ Text.byteLength t := by
  fun_induction expandQuotes t with
  | case1 t ih =>
    simp only [Text.byteLength]
    omega
  | case2 c t hc ih =>
    simp only [Text.byteLength]
    omega
  | case3 => exact Nat.le_refl _

theorem byteLength_unescape_le (t : Text) : Text.byteLength (unescape t) ≤ Text.byteLength t :=
  (byteLength_expandQuotes_le _).trans (byteLength_expandNewlines_le t)

end Values

end MipsStepper.Directive
