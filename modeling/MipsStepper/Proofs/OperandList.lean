import Mathlib.Tactic.ByContra
import MipsStepper.Instruction.Decode

/-!
# Lists of operands

Operands are tokens of four classes, with a comma between two of them and
blanks around the comma. The first three classes hold neither comma nor blank,
so cutting a text at every comma finds them again. An address may hold both.
It comes last and is all that follows the comma before it.
-/

set_option autoImplicit false

namespace MipsStepper

namespace Text

theorem trim_cons_blank {c : Char} (hc : isBlank c = true) (t : Text) :
    trim (c :: t) = trim t :=
  @trim_blank_append [c] (List.forall_mem_singleton.mpr hc) t

theorem trim_eq_self_iff (t : Text) : trim t = t ↔
    (∀ c, t.head? = some c → isBlank c = false) ∧
      ∀ c, t.getLast? = some c → isBlank c = false := by
  constructor
  · intro h
    constructor
    · intro c hc
      obtain ⟨s, rfl⟩ := List.head?_eq_some_iff.mp hc
      by_contra hblank
      rw [Bool.not_eq_false] at hblank
      rw [trim_cons_blank hblank] at h
      have hlength := (trim_sublist s).length_le
      rw [h, List.length_cons] at hlength
      omega
    · intro c hc
      obtain ⟨s, rfl⟩ := List.getLast?_eq_some_iff.mp hc
      by_contra hblank
      rw [Bool.not_eq_false] at hblank
      rw [trim_append_blank (List.forall_mem_singleton.mpr hblank)] at h
      have hlength := (trim_sublist s).length_le
      rw [h, List.length_append, List.length_singleton] at hlength
      omega
  · intro h
    exact trim_eq_self h.1 h.2

section Cut
variable {c : Char} {t : Text}

theorem ne_of_not_mem (h : c ∉ t) : ∀ d ∈ t, decide (d ≠ c) = true := fun _ hd =>
  decide_eq_true (ne_of_mem_of_not_mem hd h)

theorem takeWhile_cut (h : c ∉ t) (rest : Text) : (t ++ c :: rest).takeWhile (· ≠ c) = t := by
  rw [List.takeWhile_append_of_pos (ne_of_not_mem h), List.takeWhile_cons_of_neg (by simp),
    List.append_nil]

theorem dropWhile_cut (h : c ∉ t) (rest : Text) :
    (t ++ c :: rest).dropWhile (· ≠ c) = c :: rest := by
  rw [List.dropWhile_append_of_pos (ne_of_not_mem h), List.dropWhile_cons_of_neg (by simp)]

end Cut

end Text

def IsLetter (c : Char) : Prop := 'a' ≤ c ∧ c ≤ 'z' ∨ 'A' ≤ c ∧ c ≤ 'Z'

def IsDigit (c : Char) : Prop := '0' ≤ c ∧ c ≤ '9'

def IsWord (c : Char) : Prop := IsLetter c ∨ IsDigit c ∨ c = '_'

theorem isAlpha_iff (c : Char) : c.isAlpha = true ↔ IsLetter c := by
  have halpha : c.isAlpha = (c.isUpper || c.isLower) := rfl
  have hupper : c.isUpper = decide ('A' ≤ c ∧ c ≤ 'Z') := rfl
  have hlower : c.isLower = (decide ('a' ≤ c) && decide (c ≤ 'z')) := rfl
  simp [IsLetter, halpha, hupper, hlower, or_comm]

theorem isWordChar_iff (c : Char) : Text.isWordChar c = true ↔ IsWord c := by
  have hdigit : c.isDigit = true ↔ IsDigit c := by
    simp [IsDigit, Char.isDigit, Char.le_def]
  simp [Text.isWordChar, Char.isAlphanum, IsWord, isAlpha_iff, hdigit, or_assoc]

inductive Token where
  | register
  | label
  | immediate
  | address
deriving DecidableEq

namespace Token

def Spells : Token → Text → Prop
  | .register, t => ∃ name, t = '$' :: name ∧ name ≠ [] ∧ ∀ c ∈ name, IsWord c
  | .label, t => ∃ c rest, t = c :: rest ∧ (IsLetter c ∨ c = '_' ∨ c = '.' ∨ c = '$') ∧
      ∀ d ∈ rest, IsWord d ∨ d = '.' ∨ d = '$'
  | .immediate, t => t ≠ [] ∧ ∀ c ∈ t, c ≠ ',' ∧ Text.isBlank c = false
  | .address, t => t ≠ [] ∧ Text.trim t = t

end Token

namespace Operand

theorem isRegister_iff (t : Text) : isRegister t = true ↔ Token.register.Spells t := by
  constructor
  · intro h
    unfold isRegister at h
    split at h
    · rename_i c name
      exact ⟨c :: name, rfl, by simp, fun d hd => (isWordChar_iff d).mp (List.all_eq_true.mp h d hd)⟩
    · cases h
  · rintro ⟨name, rfl, hne, hword⟩
    obtain ⟨c, name, rfl⟩ := List.exists_cons_of_ne_nil hne
    exact List.all_eq_true.mpr fun d hd => (isWordChar_iff d).mpr (hword d hd)

theorem isLabelStart_iff (c : Char) :
    isLabelStart c = true ↔ IsLetter c ∨ c = '_' ∨ c = '.' ∨ c = '$' := by
  simp [isLabelStart, isAlpha_iff, or_assoc]

theorem isLabelChar_iff (c : Char) : isLabelChar c = true ↔ IsWord c ∨ c = '.' ∨ c = '$' := by
  simp [isLabelChar, isWordChar_iff, or_assoc]

theorem isLabel_iff (t : Text) : isLabel t = true ↔ Token.label.Spells t := by
  cases t with
  | nil => simp [isLabel, Token.Spells]
  | cons c t =>
    rw [isLabel, Bool.and_eq_true, isLabelStart_iff, List.all_eq_true]
    simp only [isLabelChar_iff]
    constructor
    · rintro ⟨hstart, hchars⟩
      exact ⟨c, t, rfl, hstart, hchars⟩
    · rintro ⟨c', t', heq, hstart, hchars⟩
      cases heq
      exact ⟨hstart, hchars⟩

theorem isImmediate_iff (t : Text) : isImmediate t = true ↔ Token.immediate.Spells t := by
  simp [isImmediate, Token.Spells, and_comm]

end Operand

namespace Token
variable {k : Token} {x : Text}

theorem isWord_solid {c : Char} (h : IsWord c) : c ≠ ',' ∧ Text.isBlank c = false := by
  rw [← isWordChar_iff] at h
  constructor
  · rintro rfl
    exact absurd h (by decide)
  · exact Text.not_blank_of_class Text.isWordChar (by decide) h

theorem Spells.solid (h : k.Spells x) (hk : k ≠ .address) :
    x ≠ [] ∧ ∀ c ∈ x, c ≠ ',' ∧ Text.isBlank c = false := by
  cases k with
  | register =>
    obtain ⟨name, rfl, -, hword⟩ := h
    refine ⟨by simp, fun c hc => ?_⟩
    rcases List.mem_cons.mp hc with rfl | hc
    · decide
    · exact isWord_solid (hword c hc)
  | label =>
    obtain ⟨c, rest, rfl, hstart, hchars⟩ := h
    refine ⟨by simp, fun d hd => ?_⟩
    have hd' : IsWord d ∨ d = '.' ∨ d = '$' := by
      rcases List.mem_cons.mp hd with rfl | hd
      · rcases hstart with hletter | rfl | hother
        · exact .inl (.inl hletter)
        · exact .inl (.inr (.inr rfl))
        · exact .inr hother
      · exact hchars d hd
    rcases hd' with hword | rfl | rfl
    · exact isWord_solid hword
    · decide
    · decide
  | immediate => exact h
  | address => exact absurd rfl hk

theorem Spells.ne_nil (h : k.Spells x) : x ≠ [] := by
  by_cases hk : k = .address
  · subst hk
    exact h.1
  · exact (h.solid hk).1

theorem Spells.comma_not_mem (h : k.Spells x) (hk : k ≠ .address) : ',' ∉ x :=
  fun hx => ((h.solid hk).2 _ hx).1 rfl

theorem Spells.trim_eq (h : k.Spells x) : Text.trim x = x := by
  by_cases hk : k = .address
  · subst hk
    exact h.2
  · exact Text.trim_of_not_blank fun c hc => ((h.solid hk).2 c hc).2

theorem Spells.padded (h : k.Spells x) (hk : k ≠ .address) {blanks : Text}
    (hblanks : ∀ c ∈ blanks, Text.isBlank c = true) :
    ',' ∉ x ++ blanks ∧ Text.trim (x ++ blanks) = x := by
  constructor
  · rw [List.mem_append, not_or]
    exact ⟨h.comma_not_mem hk, fun hc => absurd (hblanks _ hc) (by decide)⟩
  · exact (Text.trim_append_blank hblanks x).trans h.trim_eq

end Token

/-- A list of tokens as it is written. A token before a comma ends there, so
it is no address. -/
inductive Listed : List (Token × Text) → Text → Prop
  | last {k : Token} {x : Text} (h : k.Spells x) : Listed [(k, x)] x
  | more {k : Token} {x before after t : Text} {rest : List (Token × Text)} (h : k.Spells x)
      (hk : k ≠ .address) (hbefore : ∀ c ∈ before, Text.isBlank c = true)
      (hafter : ∀ c ∈ after, Text.isBlank c = true) (hrest : Listed rest t) :
      Listed ((k, x) :: rest) (x ++ before ++ ',' :: (after ++ t))

namespace Listed
variable {tokens : List (Token × Text)} {t : Text}

theorem ne_nil (h : Listed tokens t) : t ≠ [] := by
  cases h with
  | last h => exact h.ne_nil
  | more => simp

theorem trim_eq (h : Listed tokens t) : Text.trim t = t := by
  rw [Text.trim_eq_self_iff]
  induction h with
  | last h => exact (Text.trim_eq_self_iff _).mp h.trim_eq
  | @more k x before after t rest h hk _ _ hrest ih =>
    obtain ⟨c, x, rfl⟩ := List.exists_cons_of_ne_nil h.ne_nil
    obtain ⟨d, t, rfl⟩ := List.exists_cons_of_ne_nil hrest.ne_nil
    have hfirst := ((Text.trim_eq_self_iff _).mp h.trim_eq).1
    constructor
    · simpa using hfirst
    · simpa [List.getLast?_cons, List.getLast?_append] using ih.2

end Listed

namespace Operand

theorem list_of_not_mem {t : Text} (h : ',' ∉ t) : list t = [Text.trim t] := by
  rw [list, List.splitOn_eq_singleton h]
  rfl

theorem list_append_cons {front : Text} (h : ',' ∉ front) (tail : Text) :
    list (front ++ ',' :: tail) = Text.trim front :: list tail := by
  rw [list, List.splitOn_append_cons_self_of_not_mem h]
  rfl

theorem list_append_blank {blanks : Text} (h : ∀ c ∈ blanks, Text.isBlank c = true) (t : Text) :
    list (blanks ++ t) = list t := by
  induction blanks with
  | nil => rfl
  | cons c blanks ih =>
    have hc := h c (by simp)
    have hcomma : (c == ',') = false := by
      by_contra hne
      simp only [Bool.not_eq_false, beq_iff_eq] at hne
      simp [hne, Text.isBlank] at hc
    rw [← ih fun d hd => h d (by simp [hd]), List.cons_append, list, list,
      List.splitOn_cons_eq_if_modifyHead, hcomma]
    obtain ⟨first, rest, hsplit⟩ :=
      List.exists_cons_of_ne_nil (List.splitOn_ne_nil ',' (blanks ++ t))
    simp [hsplit, Text.trim_cons_blank hc]

end Operand

namespace Listed
variable {tokens : List (Token × Text)} {t : Text}

theorem spells (h : Listed tokens t) : ∀ token ∈ tokens, token.1.Spells token.2 := by
  induction h with
  | last h => simpa using h
  | more h _ _ _ _ ih => exact List.forall_mem_cons.mpr ⟨h, ih⟩

theorem singleton {k : Token} {x : Text} (h : Listed [(k, x)] t) : t = x ∧ k.Spells x := by
  cases h with
  | last h => exact ⟨rfl, h⟩
  | more _ _ _ _ hrest => cases hrest

/-- A list is cut at its first comma into a token and a shorter list. -/
theorem uncons {k : Token} {x : Text} (hne : tokens ≠ []) (h : Listed ((k, x) :: tokens) t) :
    ∃ front tail, t = front ++ ',' :: tail ∧ ',' ∉ front ∧ Text.trim front = x ∧
      Listed tokens (Text.trim tail) := by
  cases h with
  | last _ => exact absurd rfl hne
  | @more _ _ before after t _ h hk hbefore hafter hrest =>
    obtain ⟨hcomma, htrim⟩ := h.padded hk hbefore
    have htail : Text.trim (after ++ t) = t :=
      (Text.trim_blank_append hafter t).trans hrest.trim_eq
    exact ⟨x ++ before, after ++ t, rfl, hcomma, htrim, htail.symm ▸ hrest⟩

theorem unique {tokens' : List (Token × Text)} (h : Listed tokens t) (h' : Listed tokens' t)
    (hclasses : tokens.map Prod.fst = tokens'.map Prod.fst) : tokens = tokens' := by
  induction h generalizing tokens' with
  | @last k x h =>
    obtain ⟨⟨k', x'⟩, rfl, rfl⟩ := List.map_eq_singleton_iff.mp hclasses.symm
    rw [h'.singleton.1]
  | @more k x before after t rest h hk hbefore hafter hrest ih =>
    obtain ⟨⟨k', x'⟩, rest', rfl, rfl, hrest'⟩ := List.map_eq_cons_iff.mp hclasses.symm
    have hne : rest' ≠ [] := by
      rintro rfl
      cases hrest with
      | last => cases hrest'
      | more => cases hrest'
    obtain ⟨front, tail, hcut, hcomma, htrim, htail⟩ := h'.uncons hne
    obtain ⟨hcomma', htrim'⟩ := h.padded hk hbefore
    have hfront : x ++ before = front := by
      rw [← Text.takeWhile_cut hcomma', hcut, Text.takeWhile_cut hcomma]
    have hback : after ++ t = tail := by
      rw [← hfront] at hcut
      exact (List.cons.inj (List.append_cancel_left hcut)).2
    have hx : x = x' := by rw [← htrim', ← htrim, hfront]
    have ht : Text.trim tail = t := by
      rw [← hback, Text.trim_blank_append hafter, hrest.trim_eq]
    rw [hx, ih (ht ▸ htail) hrest'.symm]

/-- Cutting at commas finds the tokens of a list without addresses. -/
theorem list_eq (h : Listed tokens t) (hfree : ∀ token ∈ tokens, token.1 ≠ .address) :
    Operand.list t = tokens.map Prod.snd := by
  induction h with
  | @last k x h =>
    have hk : k ≠ .address := hfree (k, x) (by simp)
    rw [Operand.list_of_not_mem (h.comma_not_mem hk), h.trim_eq]
    rfl
  | @more k x before after t rest h hk hbefore hafter hrest ih =>
    obtain ⟨hcomma, htrim⟩ := h.padded hk hbefore
    rw [Operand.list_append_cons hcomma, htrim, Operand.list_append_blank hafter,
      ih fun token htoken => hfree token (by simp [htoken])]
    rfl

theorem cons {k : Token} {front tail : Text} (hk : k ≠ .address) (h : k.Spells (Text.trim front))
    (hrest : Listed tokens (Text.trim tail)) :
    Listed ((k, Text.trim front) :: tokens) (Text.trim (front ++ ',' :: tail)) := by
  obtain ⟨left, before, hleft, hbefore, hfront⟩ := Text.exists_pad front
  obtain ⟨after, right, hafter, hright, htail⟩ := Text.exists_pad tail
  have hlisted := Listed.more h hk hbefore hafter hrest
  have hwhole : front ++ ',' :: tail = left ++
      (Text.trim front ++ before ++ ',' :: (after ++ Text.trim tail)) ++ right := by
    conv_lhs => rw [← hfront, ← htail]
    simp
  rw [hwhole, Text.trim_pad hleft hright, hlisted.trim_eq]
  exact hlisted

theorem of_list (hfree : ∀ token ∈ tokens, token.1 ≠ .address)
    (hspells : ∀ token ∈ tokens, token.1.Spells token.2)
    (h : Operand.list t = tokens.map Prod.snd) : Listed tokens (Text.trim t) := by
  induction tokens generalizing t with
  | nil =>
    have hne : Operand.list t ≠ [] := by simp [Operand.list, List.splitOn_ne_nil]
    exact absurd h hne
  | cons token tokens ih =>
    obtain ⟨k, x⟩ := token
    have hk : k ≠ .address := hfree (k, x) (by simp)
    have hx : k.Spells x := hspells (k, x) (by simp)
    by_cases hcomma : ',' ∈ t
    · obtain ⟨front, tail, rfl, hfront⟩ := List.eq_append_cons_of_mem hcomma
      rw [Operand.list_append_cons hfront, List.map_cons] at h
      obtain ⟨rfl, htail⟩ := List.cons.inj h
      have hrest := ih (fun token htoken => hfree token (by simp [htoken]))
        (fun token htoken => hspells token (by simp [htoken])) htail
      exact .cons hk hx hrest
    · rw [Operand.list_of_not_mem hcomma, List.map_cons] at h
      obtain ⟨rfl, htokens⟩ := List.cons.inj h
      rw [List.map_eq_nil_iff.mp htokens.symm]
      exact .last hx

end Listed

end MipsStepper
