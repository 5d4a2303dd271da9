import Mathlib.Algebra.Ring.Nat
import Mathlib.Tactic.SplitIfs
import MipsStepper.Text

/-!
# The byte order of texts

Tables are listed in the order of their keys, character by character. Their
bytes in UTF-8 have the same order: a character that takes more bytes has the
greater first byte, and of two characters that take equally many the bits of
the code point come in the bytes from the highest to the lowest. So texts are
compared as their bytes are.
-/

set_option autoImplicit false

namespace MipsStepper.Text

def bytes (t : Text) : List UInt8 := t.flatMap String.utf8EncodeChar

/-- A first byte and `k` further bytes, each of which takes six bits from the
end of the number. -/
def multibyte (first : Nat → Nat) : Nat → Nat → List UInt8
  | 0, n => [UInt8.ofNat (first n)]
  | k + 1, n => multibyte first k (n / 64) ++ [UInt8.ofNat (n % 64 + 128)]

section Characters

theorem byte_cons_lt {a b : Nat} (ha : a < 256) (hb : b < 256) (u v : List UInt8) :
    UInt8.ofNat a :: u < UInt8.ofNat b :: v ↔ a < b ∨ a = b ∧ u < v := by
  rw [List.cons_lt_cons_iff, UInt8.lt_iff_toNat_lt, ← UInt8.toNat_inj,
    UInt8.toNat_ofNat_of_lt' ha, UInt8.toNat_ofNat_of_lt' hb]

/-- The further bytes keep the order that the first byte has. -/
theorem multibyte_lt {first : Nat → Nat} {bound : Nat}
    (hfirst : ∀ m n, m < n → n < bound → first m < first n ∧ first n < 256) (k : Nat) {m n : Nat}
    (h : m < n) (hn : n < bound * 64 ^ k) (u v : List UInt8) :
    multibyte first k m ++ u < multibyte first k n ++ v := by
  induction k generalizing m n u v with
  | zero =>
    obtain ⟨hlt, hbyte⟩ := hfirst m n h (by omega)
    exact (byte_cons_lt (by omega) hbyte u v).mpr (.inl hlt)
  | succ k ih =>
    have hquotient : n / 64 < bound * 64 ^ k := by
      rw [Nat.div_lt_iff_lt_mul (by decide), Nat.mul_assoc, ← Nat.pow_succ]
      exact hn
    simp only [multibyte, List.append_assoc]
    by_cases hlt : m / 64 < n / 64
    · exact ih hlt hquotient _ _
    · have heq : m / 64 = n / 64 := by omega
      rw [heq]
      apply List.append_left_lt
      exact (byte_cons_lt (by omega) (by omega) u v).mpr (.inl (by omega))

theorem utf8EncodeChar_lt {c d : Char} (h : c < d) (u v : List UInt8) :
    String.utf8EncodeChar c ++ u < String.utf8EncodeChar d ++ v := by
  have hbound : ∀ e : Char, e.val.toNat < 0x110000 := by
    intro e
    have hvalid := e.valid
    simp only [UInt32.isValidChar, Nat.isValidChar] at hvalid
    omega
  have hlt : c.val.toNat < d.val.toNat := h
  have hc := hbound c
  have hd := hbound d
  simp only [String.utf8EncodeChar]
  generalize c.val.toNat = m at *
  generalize d.val.toNat = n at *
  have htwo := @multibyte_lt (fun q => q % 32 + 192) 32 (by omega) 1 m n hlt
  have hthree := @multibyte_lt (fun q => q % 16 + 224) 16 (by omega) 2 m n hlt
  have hfour := @multibyte_lt (fun q => q % 8 + 240) 8 (by omega) 3 m n hlt
  simp only [multibyte, Nat.div_div_eq_div_mul] at htwo hthree hfour
  -- The first bytes decide, but for characters that take equally many bytes.
  split_ifs
  all_goals try
    simp only [List.cons_append, List.nil_append]
    rw [byte_cons_lt (by omega) (by omega)]
    omega
  · exact htwo (by omega) u v
  · exact hthree (by omega) u v
  · exact hfour (by omega) u v

end Characters

section Texts
variable {s t : Text}

theorem bytes_cons (c : Char) (t : Text) :
    bytes (c :: t) = String.utf8EncodeChar c ++ bytes t := List.flatMap_cons

theorem bytes_lt_of_compare (h : compare s t = .lt) : s.bytes < t.bytes := by
  induction s generalizing t with
  | nil =>
    cases t with
    | nil => cases h
    | cons d t =>
      obtain ⟨b, rest, hbytes⟩ := List.exists_cons_of_ne_nil (@String.utf8EncodeChar_ne_nil d)
      rw [bytes_cons, hbytes]
      exact List.nil_lt_cons _ _
  | cons c s ih =>
    cases t with
    | nil => cases h
    | cons d t =>
      rw [List.compare_cons_cons, Ordering.then_eq_lt] at h
      rw [bytes_cons, bytes_cons]
      rcases h with hchar | ⟨hchar, hrest⟩
      · exact utf8EncodeChar_lt (compareOfLessAndEq_eq_lt.mp hchar) _ _
      · rw [Std.LawfulEqCmp.eq_of_compare hchar]
        exact List.append_left_lt (ih hrest)

theorem bytes_lt_iff : s.bytes < t.bytes ↔ compare s t = .lt := by
  refine ⟨fun h => ?_, bytes_lt_of_compare⟩
  cases hcompare : compare s t with
  | lt => rfl
  | eq =>
    rw [Std.LawfulEqCmp.eq_of_compare hcompare] at h
    exact absurd h (List.lt_irrefl _)
  | gt =>
    have hgreater := bytes_lt_of_compare (Std.OrientedCmp.lt_of_gt hcompare)
    exact absurd hgreater (List.lt_asymm h)

theorem bytes_le_iff : s.bytes ≤ t.bytes ↔ (compare s t).isLE := by
  rw [← List.not_lt, bytes_lt_iff, ← Std.OrientedCmp.gt_iff_lt]
  cases compare s t <;> simp

end Texts

end MipsStepper.Text
