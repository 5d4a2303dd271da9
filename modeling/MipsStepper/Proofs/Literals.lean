import Mathlib.Data.List.Forall2
import Mathlib.Data.List.TakeWhile
import Mathlib.Data.Nat.Digits.Defs
import Mathlib.Tactic.SplitIfs
import MipsStepper.Numeral

/-!
# What literals denote

The digits of a literal denote a number by their positions, however many there
are. A text is a hexadecimal literal as a whole or it is none. Any other text
counts by its front of decimal digits, as far as they go, and what stands after
them is of no account.
-/

set_option autoImplicit false

namespace MipsStepper.Literal

/-- The digits of both bases, letters in either case, with their values. -/
inductive Digit : Char → Nat → Prop
  | decimal {c : Char} (h : '0' ≤ c ∧ c ≤ '9') : Digit c (c.toNat - '0'.toNat)
  | lower {c : Char} (h : 'a' ≤ c ∧ c ≤ 'f') : Digit c (c.toNat - 'a'.toNat + 10)
  | upper {c : Char} (h : 'A' ≤ c ∧ c ≤ 'F') : Digit c (c.toNat - 'A'.toNat + 10)

/-- The number that the digits of a text denote by their positions. -/
structure Denotes (base : Nat) (t : Text) (n : Nat) : Prop where
  ne_nil : t ≠ []
  digits : ∃ ds, List.Forall₂ Digit t ds ∧ (∀ d ∈ ds, d < base) ∧ Nat.ofDigits base ds.reverse = n

/-- The texts `-?0[xX][0-9A-Fa-f]+`, with the numbers they denote. -/
inductive Hexadecimal : Text → Int → Prop
  | plain {x : Char} {t : Text} {n : Nat} (hx : x = 'x' ∨ x = 'X') (h : Denotes 16 t n) :
      Hexadecimal ('0' :: x :: t) n
  | minus {x : Char} {t : Text} {n : Nat} (hx : x = 'x' ∨ x = 'X') (h : Denotes 16 t n) :
      Hexadecimal ('-' :: '0' :: x :: t) (-n)

/-- The texts `[+-]?[0-9]+`, with the numbers they denote. -/
inductive Decimal : Text → Int → Prop
  | plain {t : Text} {n : Nat} (h : Denotes 10 t n) : Decimal t n
  | plus {t : Text} {n : Nat} (h : Denotes 10 t n) : Decimal ('+' :: t) n
  | minus {t : Text} {n : Nat} (h : Denotes 10 t n) : Decimal ('-' :: t) (-n)

/-- A text with a decimal literal in front that no further digit continues. -/
def DecimalFront (t : Text) (v : Int) : Prop :=
  ∃ front rest, t = front ++ rest ∧ Decimal front v ∧
    ∀ c, rest.head? = some c → ¬ ('0' ≤ c ∧ c ≤ '9')

section Digits
variable {c : Char} {d : Nat} {t : Text} {ds : List Nat}

theorem hexDigit?_eq_some_iff : hexDigit? c = some d ↔ Digit c d := by
  unfold hexDigit?
  constructor
  · intro h
    split_ifs at h with h0 ha hA
    · cases h
      exact .decimal h0
    · cases h
      exact .lower ha
    · cases h
      exact .upper hA
  · intro h
    cases h with
    | decimal h0 => rw [if_pos h0]
    | lower ha =>
      have h0 : ¬ ('0' ≤ c ∧ c ≤ '9') := fun h => absurd (Char.le_trans ha.1 h.2) (by decide)
      rw [if_neg h0, if_pos ha]
    | upper hA =>
      have h0 : ¬ ('0' ≤ c ∧ c ≤ '9') := fun h => absurd (Char.le_trans hA.1 h.2) (by decide)
      have ha : ¬ ('a' ≤ c ∧ c ≤ 'f') := fun h => absurd (Char.le_trans h.1 hA.2) (by decide)
      rw [if_neg h0, if_neg ha, if_pos hA]

theorem isDigit_iff : c.isDigit = true ↔ '0' ≤ c ∧ c ≤ '9' := by
  simp [Char.isDigit, Char.le_def]

theorem between_iff {a b : Char} : a ≤ c ∧ c ≤ b ↔ a.toNat ≤ c.toNat ∧ c.toNat ≤ b.toNat := Iff.rfl

theorem Digit.lt (h : Digit c d) : d < 16 := by
  cases h with
  | decimal h =>
    have hc : 48 ≤ c.toNat ∧ c.toNat ≤ 57 := between_iff.mp h
    show c.toNat - 48 < 16
    omega
  | lower h =>
    have hc : 97 ≤ c.toNat ∧ c.toNat ≤ 102 := between_iff.mp h
    show c.toNat - 97 + 10 < 16
    omega
  | upper h =>
    have hc : 65 ≤ c.toNat ∧ c.toNat ≤ 70 := between_iff.mp h
    show c.toNat - 65 + 10 < 16
    omega

theorem digit_decimal_iff : Digit c d ∧ d < 10 ↔ c.isDigit = true ∧ d = c.toNat - '0'.toNat := by
  rw [isDigit_iff]
  constructor
  · rintro ⟨h, hd⟩
    cases h with
    | decimal h => exact ⟨h, rfl⟩
    | lower h => omega
    | upper h => omega
  · rintro ⟨h, rfl⟩
    have hc : 48 ≤ c.toNat ∧ c.toNat ≤ 57 := between_iff.mp h
    refine ⟨.decimal h, ?_⟩
    show c.toNat - 48 < 10
    omega

theorem hexDigits?_eq_some_iff : hexDigits? t = some ds ↔ List.Forall₂ Digit t ds := by
  induction t generalizing ds with
  | nil => simp [hexDigits?, eq_comm]
  | cons c t ih =>
    simp only [hexDigits?, List.forall₂_cons_left_iff, Option.bind_eq_some_iff,
      Option.map_eq_some_iff, hexDigit?_eq_some_iff, ih]
    constructor
    · rintro ⟨d, hd, rest, hrest, rfl⟩
      exact ⟨d, rest, hd, hrest, rfl⟩
    · rintro ⟨d, rest, hd, hrest, rfl⟩
      exact ⟨d, hd, rest, hrest, rfl⟩

theorem lt_of_forall₂ (h : List.Forall₂ Digit t ds) : ∀ d ∈ ds, d < 16 := by
  induction h with
  | nil => exact List.forall_mem_nil _
  | cons hd _ ih => exact List.forall_mem_cons.mpr ⟨hd.lt, ih⟩

theorem forall₂_of_decimal (h : ∀ c ∈ t, c.isDigit = true) :
    List.Forall₂ Digit t (t.map fun c => c.toNat - '0'.toNat) := by
  rw [List.forall₂_map_right_iff, List.forall₂_same]
  exact fun c hc => (digit_decimal_iff.mpr ⟨h c hc, rfl⟩).1

theorem lt_of_decimal (h : ∀ c ∈ t, c.isDigit = true) :
    ∀ d ∈ t.map fun c => c.toNat - '0'.toNat, d < 10 := by
  intro d hd
  obtain ⟨c, hc, rfl⟩ := List.mem_map.mp hd
  exact (digit_decimal_iff.mpr ⟨h c hc, rfl⟩).2

theorem decimal_of_forall₂ (h : List.Forall₂ Digit t ds) (hlt : ∀ d ∈ ds, d < 10) :
    (∀ c ∈ t, c.isDigit = true) ∧ ds = t.map fun c => c.toNat - '0'.toNat := by
  induction h with
  | nil => exact ⟨List.forall_mem_nil _, rfl⟩
  | cons hd _ ih =>
    obtain ⟨hfirst, hrest⟩ := List.forall_mem_cons.mp hlt
    obtain ⟨hdigit, rfl⟩ := digit_decimal_iff.mp ⟨hd, hfirst⟩
    obtain ⟨hdigits, rfl⟩ := ih hrest
    exact ⟨List.forall_mem_cons.mpr ⟨hdigit, hdigits⟩, rfl⟩

end Digits

theorem magnitude_eq (l : Literal) : l.magnitude = Nat.ofDigits l.base l.digits.reverse := by
  rw [Nat.ofDigits_eq_foldr, List.foldr_reverse, magnitude]
  congr 1
  funext n d
  exact (Nat.add_comm _ _).trans (congrArg (d + ·) (Nat.mul_comm _ _))

section Magnitudes
variable {t : Text} {n : Nat}

theorem hexMagnitude?_iff :
    (hexMagnitude? t).map (fun ds => Nat.ofDigits 16 ds.reverse) = some n ↔
      ∃ x s, t = '0' :: x :: s ∧ (x = 'x' ∨ x = 'X') ∧ Denotes 16 s n := by
  constructor
  · intro h
    obtain ⟨ds, hds, rfl⟩ := Option.map_eq_some_iff.mp h
    unfold hexMagnitude? at hds
    split at hds
    · rename_i x c s
      split_ifs at hds with hx
      have hs := hexDigits?_eq_some_iff.mp hds
      exact ⟨x, c :: s, rfl, hx, List.cons_ne_nil c s, ds, hs, lt_of_forall₂ hs, rfl⟩
    · cases hds
  · rintro ⟨x, s, rfl, hx, hne, ds, hs, -, rfl⟩
    obtain ⟨c, s, rfl⟩ := List.exists_cons_of_ne_nil hne
    rw [hexMagnitude?, if_pos hx, hexDigits?_eq_some_iff.mpr hs]
    rfl

theorem decimalMagnitude?_iff :
    (decimalMagnitude? t).map (fun ds => Nat.ofDigits 10 ds.reverse) = some n ↔
      ∃ front rest, t = front ++ rest ∧ Denotes 10 front n ∧
        ∀ c, rest.head? = some c → ¬ ('0' ≤ c ∧ c ≤ '9') := by
  constructor
  · intro h
    obtain ⟨ds, hds, rfl⟩ := Option.map_eq_some_iff.mp h
    unfold decimalMagnitude? at hds
    split at hds
    · cases hds
    · rename_i hne
      cases hds
      have hdigits : ∀ c ∈ t.takeWhile Char.isDigit, c.isDigit = true :=
        fun c => List.mem_takeWhile_imp
      have hrest : ∀ c, (t.dropWhile Char.isDigit).head? = some c → ¬ ('0' ≤ c ∧ c ≤ '9') := by
        intro c hc
        have hhead := List.head?_dropWhile_not Char.isDigit t
        rw [hc] at hhead
        rw [← isDigit_iff, hhead]
        exact Bool.false_ne_true
      exact ⟨_, _, List.takeWhile_append_dropWhile.symm,
        ⟨hne, _, forall₂_of_decimal hdigits, lt_of_decimal hdigits, rfl⟩, hrest⟩
  · rintro ⟨front, rest, rfl, ⟨hne, ds, hfront, hlt, rfl⟩, hrest⟩
    obtain ⟨hdigits, rfl⟩ := decimal_of_forall₂ hfront hlt
    have htake : (front ++ rest).takeWhile Char.isDigit = front := by
      rw [List.takeWhile_append_of_pos hdigits]
      cases rest with
      | nil => exact List.append_nil front
      | cons c rest => simp [mt isDigit_iff.mp (hrest c rfl)]
    obtain ⟨c, front, rfl⟩ := List.exists_cons_of_ne_nil hne
    rw [decimalMagnitude?, htake]
    rfl

theorem value_signed_iff {digits : Option (List Nat)} {negative : Bool} {base : Nat} {v : Int} :
    (digits.map fun ds => (⟨negative, base, ds⟩ : Literal)).map value = some v ↔
      ∃ n : Nat, digits.map (fun ds => Nat.ofDigits base ds.reverse) = some n ∧
        v = if negative then -(n : Int) else n := by
  cases digits with
  | none => simp
  | some ds => simp [value, magnitude_eq, eq_comm]

end Magnitudes

section Reading
variable {t : Text} {v : Int}

theorem value_hex?_eq_some_iff : (hex? t).map value = some v ↔ Hexadecimal t v := by
  constructor
  · intro h
    unfold hex? at h
    split at h
    · obtain ⟨n, hn, rfl⟩ := value_signed_iff.mp h
      obtain ⟨x, s, rfl, hx, hs⟩ := hexMagnitude?_iff.mp hn
      exact .minus hx hs
    · obtain ⟨n, hn, rfl⟩ := value_signed_iff.mp h
      obtain ⟨x, s, rfl, hx, hs⟩ := hexMagnitude?_iff.mp hn
      exact .plain hx hs
  · intro h
    cases h with
    | @plain x s n hx hs =>
      have hn := hexMagnitude?_iff.mpr ⟨x, s, rfl, hx, hs⟩
      exact value_signed_iff.mpr ⟨n, hn, rfl⟩
    | @minus x s n hx hs =>
      have hn := hexMagnitude?_iff.mpr ⟨x, s, rfl, hx, hs⟩
      exact value_signed_iff.mpr ⟨n, hn, rfl⟩

theorem Denotes.decimal {n : Nat} (h : Denotes 10 t n) : ∀ c ∈ t, c.isDigit = true := by
  obtain ⟨-, ds, hdigits, hlt, -⟩ := h
  exact (decimal_of_forall₂ hdigits hlt).1

theorem decimal?_of_digit {c : Char} (hc : c.isDigit = true) :
    decimal? (c :: t) = (decimalMagnitude? (c :: t)).map fun ds => ⟨false, 10, ds⟩ := by
  unfold decimal?
  split
  · rename_i heq
    cases heq
    exact absurd hc (by decide)
  · rename_i heq
    cases heq
    exact absurd hc (by decide)
  · rfl

theorem value_decimal?_eq_some_iff : (decimal? t).map value = some v ↔ DecimalFront t v := by
  constructor
  · intro h
    unfold decimal? at h
    split at h
    · obtain ⟨n, hn, rfl⟩ := value_signed_iff.mp h
      obtain ⟨front, rest, rfl, hfront, hrest⟩ := decimalMagnitude?_iff.mp hn
      exact ⟨'-' :: front, rest, rfl, .minus hfront, hrest⟩
    · obtain ⟨n, hn, rfl⟩ := value_signed_iff.mp h
      obtain ⟨front, rest, rfl, hfront, hrest⟩ := decimalMagnitude?_iff.mp hn
      exact ⟨'+' :: front, rest, rfl, .plus hfront, hrest⟩
    · obtain ⟨n, hn, rfl⟩ := value_signed_iff.mp h
      obtain ⟨front, rest, rfl, hfront, hrest⟩ := decimalMagnitude?_iff.mp hn
      exact ⟨front, rest, rfl, .plain hfront, hrest⟩
  · rintro ⟨front, rest, rfl, hfront, hrest⟩
    cases hfront with
    | @plain front n hfront =>
      have hn := decimalMagnitude?_iff.mpr ⟨front, rest, rfl, hfront, hrest⟩
      obtain ⟨c, front, rfl⟩ := List.exists_cons_of_ne_nil hfront.ne_nil
      rw [List.cons_append, decimal?_of_digit (hfront.decimal c List.mem_cons_self)]
      exact value_signed_iff.mpr ⟨n, hn, rfl⟩
    | @plus front n hfront =>
      have hn := decimalMagnitude?_iff.mpr ⟨front, rest, rfl, hfront, hrest⟩
      exact value_signed_iff.mpr ⟨n, hn, rfl⟩
    | @minus front n hfront =>
      have hn := decimalMagnitude?_iff.mpr ⟨front, rest, rfl, hfront, hrest⟩
      exact value_signed_iff.mpr ⟨n, hn, rfl⟩

/-- A text that is no hexadecimal literal counts by its decimal front. -/
theorem value_ofText?_eq_some_iff : (ofText? t).map value = some v ↔
    Hexadecimal (Text.trim t) v ∨
      (∀ w, ¬ Hexadecimal (Text.trim t) w) ∧ DecimalFront (Text.trim t) v := by
  have hnone : (hex? (Text.trim t)).map value = none ↔ ∀ w, ¬ Hexadecimal (Text.trim t) w := by
    simp only [← value_hex?_eq_some_iff, ← ne_eq, ← Option.eq_none_iff_forall_ne_some]
  rw [ofText?, Option.map_or, Option.or_eq_some_iff, value_hex?_eq_some_iff, hnone,
    value_decimal?_eq_some_iff]

theorem read?_eq (t : Text) : read? t = ((ofText? t).map value).map Word.wrap := by
  rw [read?, Option.map_map]
  exact congrArg (fun f => (ofText? t).map f) (funext word_eq)

theorem read?_of_hexadecimal (h : Hexadecimal (Text.trim t) v) : read? t = some (Word.wrap v) := by
  rw [read?_eq, value_ofText?_eq_some_iff.mpr (.inl h)]
  rfl

theorem read?_of_decimalFront (hnot : ∀ w, ¬ Hexadecimal (Text.trim t) w)
    (h : DecimalFront (Text.trim t) v) : read? t = some (Word.wrap v) := by
  rw [read?_eq, value_ofText?_eq_some_iff.mpr (.inr ⟨hnot, h⟩)]
  rfl

theorem read?_eq_none (hhex : ∀ v, ¬ Hexadecimal (Text.trim t) v)
    (hdecimal : ∀ v, ¬ DecimalFront (Text.trim t) v) : read? t = none := by
  rw [read?_eq, Option.map_eq_none_iff, Option.eq_none_iff_forall_ne_some]
  intro v hv
  rcases value_ofText?_eq_some_iff.mp hv with h | ⟨-, h⟩
  · exact hhex v h
  · exact hdecimal v h

end Reading

end MipsStepper.Literal
