import MipsStepper.Proofs.Literals

/-!
# Reading written numerals

A number that is written in decimal or in hexadecimal is a literal that
denotes it, at every width. So a word is read back from its signed decimal
text and from its bit pattern in hexadecimal digits. Any other text is read by
the grammar of literals, as the word congruent to the number it denotes.
-/

set_option autoImplicit false

namespace MipsStepper

namespace Literal

def isDigit (c : Char) : Bool := (hexDigit? c).isSome

theorem not_blank_of_isDigit {c : Char} (h : isDigit c = true) : Text.isBlank c = false :=
  Text.not_blank_of_class isDigit (by decide) h

theorem isDigit_of_decimal {c : Char} (h : c.isDigit = true) : isDigit c = true := by
  rw [isDigit, hexDigit?_eq_some_iff.mpr (digit_decimal_iff.mpr ⟨h, rfl⟩).1]
  rfl

section Denoted
variable {base n : Nat} {t : Text}

theorem digit_digitChar {d : Nat} (h : d < 16) : Digit d.digitChar d := by
  have hall : ∀ d : Fin 16, hexDigit? d.val.digitChar = some d.val := by decide
  exact hexDigit?_eq_some_iff.mp (hall ⟨d, h⟩)

theorem denotes_toDigits (hbase : 1 < base) (hle : base ≤ 16) (n : Nat) :
    Denotes base (Nat.toDigits base n) n := by
  induction n using Nat.strong_induction_on with
  | _ n ih =>
    rw [Nat.toDigits_eq_if hbase]
    split
    · rename_i hn
      have hdigit := digit_digitChar (Nat.lt_of_lt_of_le hn hle)
      exact ⟨by simp, [n], .cons hdigit .nil, by simpa using hn, by simp⟩
    · rename_i hn
      have hlt : n % base < base := Nat.mod_lt n (by omega)
      have hdigit := digit_digitChar (Nat.lt_of_lt_of_le hlt hle)
      obtain ⟨-, ds, hdigits, hds, hvalue⟩ := ih (n / base) (Nat.div_lt_self (by omega) hbase)
      refine ⟨by simp, ds ++ [n % base], List.rel_append hdigits (.cons hdigit .nil), ?_, ?_⟩
      · simpa [or_imp, forall_and] using ⟨hds, hlt⟩
      · rw [List.reverse_append, List.reverse_singleton, List.singleton_append, Nat.ofDigits_cons,
          hvalue]
        exact Nat.mod_add_div n base

theorem Denotes.padded (h : Denotes base t n) (hbase : 0 < base) (k : Nat) :
    Denotes base (List.replicate k '0' ++ t) n := by
  obtain ⟨hne, ds, hdigits, hlt, rfl⟩ := h
  have hzeros : List.Forall₂ Digit (List.replicate k '0') (List.replicate k 0) := by
    induction k with
    | zero => exact .nil
    | succ k ih => exact .cons (digit_digitChar (by decide : 0 < 16)) ih
  refine ⟨by simp [hne], List.replicate k 0 ++ ds, List.rel_append hzeros hdigits, ?_, ?_⟩
  · intro d hd
    rcases List.mem_append.mp hd with hzero | hd
    · rw [List.eq_of_mem_replicate hzero]
      exact hbase
    · exact hlt d hd
  · rw [List.reverse_append, List.reverse_replicate, Nat.ofDigits_append_replicate_zero]

theorem Denotes.solid (h : Denotes base t n) : ∀ c ∈ t, isDigit c = true := by
  obtain ⟨-, ds, hdigits, -, -⟩ := h
  induction hdigits with
  | nil => exact List.forall_mem_nil _
  | cons hd _ ih =>
    exact List.forall_mem_cons.mpr ⟨by simp [isDigit, hexDigit?_eq_some_iff.mpr hd], ih⟩

end Denoted

section Written
variable {t : Text} {v : Int}

theorem Decimal.solid (h : Decimal t v) : ∀ c ∈ t, c = '+' ∨ c = '-' ∨ c.isDigit = true := by
  cases h with
  | plain h => exact fun c hc => .inr (.inr (h.decimal c hc))
  | plus h => exact List.forall_mem_cons.mpr ⟨.inl rfl, fun c hc => .inr (.inr (h.decimal c hc))⟩
  | minus h =>
    exact List.forall_mem_cons.mpr ⟨.inr (.inl rfl), fun c hc => .inr (.inr (h.decimal c hc))⟩

theorem Decimal.ne_nil (h : Decimal t v) : t ≠ [] := by
  cases h with
  | plain h => exact h.ne_nil
  | plus h => exact List.cons_ne_nil _ _
  | minus h => exact List.cons_ne_nil _ _

theorem Hexadecimal.solid (h : Hexadecimal t v) :
    ∀ c ∈ t, c = '-' ∨ (c = 'x' ∨ c = 'X') ∨ isDigit c = true := by
  have hplain : ∀ {x s n}, (x = 'x' ∨ x = 'X') → Denotes 16 s n →
      ∀ c ∈ '0' :: x :: s, (c = 'x' ∨ c = 'X') ∨ isDigit c = true := fun hx hs =>
    List.forall_mem_cons.mpr ⟨.inr (by decide),
      List.forall_mem_cons.mpr ⟨.inl hx, fun c hc => .inr (hs.solid c hc)⟩⟩
  cases h with
  | plain hx h => exact fun c hc => .inr (hplain hx h c hc)
  | minus hx h =>
    exact List.forall_mem_cons.mpr ⟨.inl rfl, fun c hc => .inr (hplain hx h c hc)⟩

theorem Decimal.front (h : Decimal t v) : DecimalFront t v :=
  ⟨t, [], (List.append_nil t).symm, h, nofun⟩

theorem Hexadecimal.exists_mark (h : Hexadecimal t v) : ∃ c ∈ t, c = 'x' ∨ c = 'X' := by
  cases h with
  | @plain x s n hx h => exact ⟨x, by simp, hx⟩
  | @minus x s n hx h => exact ⟨x, by simp, hx⟩

/-- The mark of hexadecimal literals is neither a sign nor a decimal digit. -/
theorem Decimal.not_hexadecimal (h : Decimal t v) (w : Int) : ¬ Hexadecimal t w := by
  intro hhex
  obtain ⟨c, hc, hmark⟩ := hhex.exists_mark
  have hsolid := h.solid c hc
  rcases hmark with rfl | rfl <;> exact absurd hsolid (by decide)

def Numeral (t : Text) (v : Int) : Prop := Decimal t v ∨ Hexadecimal t v

theorem Numeral.not_blank (h : Numeral t v) : ∀ c ∈ t, Text.isBlank c = false := by
  intro c hc
  rcases h with h | h
  · rcases h.solid c hc with rfl | rfl | hdigit
    · decide
    · decide
    · exact not_blank_of_isDigit (isDigit_of_decimal hdigit)
  · rcases h.solid c hc with rfl | (rfl | rfl) | hdigit
    · decide
    · decide
    · decide
    · exact not_blank_of_isDigit hdigit

theorem Numeral.value_eq (h : Numeral t v) : (ofText? t).map value = some v := by
  rw [value_ofText?_eq_some_iff, Text.trim_of_not_blank h.not_blank]
  rcases h with h | h
  · exact .inr ⟨h.not_hexadecimal, h.front⟩
  · exact .inl h

theorem Numeral.unique {w : Int} (h : Numeral t v) (h' : Numeral t w) : v = w :=
  Option.some.inj (h.value_eq.symm.trans h'.value_eq)

theorem read?_numeral (h : Numeral t v) : read? t = some (Word.wrap v) := by
  rw [read?_eq, h.value_eq]
  rfl

theorem decimal_numeral (i : Int) : Decimal (decimal i) i := by
  cases i with
  | ofNat n => exact .plain (denotes_toDigits (by decide) (by decide) n)
  | negSucc n => exact .minus (denotes_toDigits (by decide) (by decide) (n + 1))

theorem padded_denotes (width n : Nat) :
    Denotes 16 ((Nat.toDigits 16 n).leftpad width '0') n :=
  (denotes_toDigits (by decide) (Nat.le_refl 16) n).padded (by decide) _

theorem hexadecimal_numeral (width n : Nat) : Hexadecimal (hexadecimal width n) n :=
  .plain (.inl rfl) (padded_denotes width n)

theorem decimal_not_blank (i : Int) : ∀ c ∈ decimal i, Text.isBlank c = false :=
  Numeral.not_blank (.inl (decimal_numeral i))

theorem hexadecimal_last (width n : Nat) :
    ∃ c, (hexadecimal width n).getLast? = some c ∧ isDigit c = true := by
  have hdigits := padded_denotes width n
  obtain ⟨c, hc⟩ := Option.ne_none_iff_exists'.mp (mt List.getLast?_eq_none_iff.mp hdigits.ne_nil)
  refine ⟨c, ?_, hdigits.solid c (List.mem_of_getLast? hc)⟩
  have happend : hexadecimal width n = ['0', 'x'] ++ (Nat.toDigits 16 n).leftpad width '0' := rfl
  rw [happend, List.getLast?_append, hc]
  rfl

theorem hexadecimal_not_blank (width n : Nat) :
    ∀ c ∈ hexadecimal width n, Text.isBlank c = false :=
  Numeral.not_blank (.inr (hexadecimal_numeral width n))

theorem read?_decimal (w : Word) : read? w.decimal = some w := by
  have hread := read?_numeral (.inl (decimal_numeral w.toInt))
  rwa [Word.wrap_toInt] at hread

theorem read?_hexadecimal (width : Nat) (w : Word) :
    read? (hexadecimal width w.bits) = some w := by
  have hread := read?_numeral (.inr (hexadecimal_numeral width w.bits))
  rwa [Word.wrap_bits] at hread

end Written

/-- The word that a text is read as, of whatever length: that of the number it
denotes if it is a hexadecimal literal as a whole, or else that of its decimal
front, and no word if it has neither. Every word is read back from its decimal
text and from its bit pattern in hexadecimal digits of any width. -/
theorem read?_classified :
    (∀ t : Text,
      (∀ v, Hexadecimal (Text.trim t) v → read? t = some (Word.wrap v)) ∧
      ((∀ v, ¬ Hexadecimal (Text.trim t) v) →
        (∀ v, DecimalFront (Text.trim t) v → read? t = some (Word.wrap v)) ∧
        ((∀ v, ¬ DecimalFront (Text.trim t) v) → read? t = none))) ∧
    (∀ w : Word, read? w.decimal = some w) ∧
    ∀ (width : Nat) (w : Word), read? (hexadecimal width w.bits) = some w := by
  refine ⟨fun t => ⟨fun v => read?_of_hexadecimal, fun hhex => ?_⟩, read?_decimal,
    read?_hexadecimal⟩
  exact ⟨fun v => read?_of_decimalFront hhex, read?_eq_none hhex⟩

/-- A failed hexadecimal literal counts by its decimal front, the sign and the
zero before the mark. -/
example : read? (Text.ofString " -0x1g") = some 0 := by decide +kernel

end Literal

end MipsStepper
