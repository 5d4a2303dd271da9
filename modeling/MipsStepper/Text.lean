/-!
# Plain text

Source lines, labels, messages and program output are lists of characters, so
that every cut and comparison is a list operation. Blanks are the six ASCII
blanks and letter case is ASCII case. Widths count UTF-8 bytes, which is what
a cell of the data segment and a column of a listing hold.
-/

set_option autoImplicit false

namespace MipsStepper

abbrev Text := List Char

namespace Text

/-- The text of a string literal. It stays folded while definitions are
unfolded, so that a long message is one term and not a list of characters. -/
@[irreducible] def ofString (s : String) : Text := s.toList

def isBlank (c : Char) : Bool :=
  c = ' ' || c = '\t' || c = '\n' || c = '\r' || c = '\x0b' || c = '\x0c'

def isWordChar (c : Char) : Bool := c.isAlphanum || c = '_'

def trimRight (t : Text) : Text := (t.reverse.dropWhile isBlank).reverse

def trim (t : Text) : Text := trimRight (t.dropWhile isBlank)

def lower (t : Text) : Text := t.map Char.toLower

def startsWith (keyword t : Text) : Bool := lower (t.take keyword.length) = keyword

def words (t : Text) : List Text := (t.splitOnP isBlank).filter (· ≠ [])

/-- The lines of a stream. What stands after the last newline is a line only
if it is not empty. -/
def lines (t : Text) : List Text :=
  let pieces := t.splitOn '\n'
  if pieces.getLast? = some [] then pieces.dropLast else pieces

def byteLength : Text → Nat
  | [] => 0
  | c :: t => c.utf8Size + byteLength t

def padRight (width : Nat) (t : Text) : Text := t ++ List.replicate (width - byteLength t) ' '

def endLine (t : Text) : Text :=
  if t.getLast?.all (· = '\n') then t else t ++ ['\n']

theorem not_blank_of_class (p : Char → Bool)
    (hp : [' ', '\t', '\n', '\r', '\x0b', '\x0c'].all fun b => !p b) {c : Char} (h : p c = true) :
    isBlank c = false := by
  cases hblank : isBlank c with
  | false => rfl
  | true =>
    have hc : c ∈ [' ', '\t', '\n', '\r', '\x0b', '\x0c'] := by
      simpa [isBlank, or_assoc] using hblank
    have hnot := List.all_eq_true.mp hp c hc
    simp [h] at hnot

theorem ofString_eq (s : String) : ofString s = s.toList := by
  unfold ofString
  rfl

theorem byteLength_append (s t : Text) : byteLength (s ++ t) = byteLength s + byteLength t := by
  induction s with
  | nil => simp [byteLength]
  | cons c s ih => simp [byteLength, ih, Nat.add_assoc]

theorem length_le_byteLength (t : Text) : t.length ≤ byteLength t := by
  induction t with
  | nil => exact Nat.le_refl 0
  | cons c t ih =>
    have hwidth := c.utf8Size_pos
    simp only [List.length_cons, byteLength]
    omega

theorem byteLength_le_of_sublist {s t : Text} (h : s.Sublist t) : byteLength s ≤ byteLength t := by
  induction h with
  | slnil => exact Nat.le_refl 0
  | cons c _ ih => exact Nat.le_trans ih (Nat.le_add_left _ _)
  | cons_cons c _ ih => exact Nat.add_le_add_left ih _

theorem trimRight_sublist (t : Text) : (trimRight t).Sublist t := by
  have h := (t.reverse.dropWhile_suffix isBlank).sublist.reverse
  rwa [List.reverse_reverse] at h

theorem trim_sublist (t : Text) : (trim t).Sublist t :=
  (trimRight_sublist _).trans (t.dropWhile_suffix isBlank).sublist

theorem trim_eq_self {t : Text} (hfirst : ∀ c, t.head? = some c → isBlank c = false)
    (hlast : ∀ c, t.getLast? = some c → isBlank c = false) : trim t = t := by
  have hdrop : ∀ {s : Text}, (∀ c, s.head? = some c → isBlank c = false) →
      s.dropWhile isBlank = s := by
    intro s hs
    cases s with
    | nil => rfl
    | cons c s => simp [hs c rfl]
  rw [trim, hdrop hfirst, trimRight, hdrop (by simpa using hlast), List.reverse_reverse]

theorem trim_of_not_blank {t : Text} (h : ∀ c ∈ t, isBlank c = false) : trim t = t :=
  trim_eq_self (fun c hc => h c (List.mem_of_mem_head? hc))
    (fun c hc => h c (List.mem_of_getLast? hc))

theorem space_blank : ∀ c ∈ [' '], isBlank c = true := by
  simp [isBlank]

theorem trimRight_append_blank {right : Text} (h : ∀ c ∈ right, isBlank c = true) (t : Text) :
    trimRight (t ++ right) = trimRight t := by
  rw [trimRight, List.reverse_append,
    List.dropWhile_append_of_pos fun c hc => h c (List.mem_reverse.mp hc)]
  rfl

theorem trim_pad {left right : Text} (hleft : ∀ c ∈ left, isBlank c = true)
    (hright : ∀ c ∈ right, isBlank c = true) (t : Text) :
    trim (left ++ t ++ right) = trim t := by
  rw [trim, trim, List.append_assoc, List.dropWhile_append_of_pos hleft, List.dropWhile_append]
  split
  · rename_i hblank
    have hnil : (right ++ []).dropWhile isBlank = [].dropWhile isBlank :=
      List.dropWhile_append_of_pos hright
    rw [List.append_nil] at hnil
    rw [hnil, List.isEmpty_iff.mp hblank]
    rfl
  · exact trimRight_append_blank hright _

theorem trim_blank_append {left : Text} (h : ∀ c ∈ left, isBlank c = true) (t : Text) :
    trim (left ++ t) = trim t := by
  have hpad := @trim_pad left [] h (List.forall_mem_nil _) t
  rwa [List.append_nil] at hpad

theorem trim_append_blank {right : Text} (h : ∀ c ∈ right, isBlank c = true) (t : Text) :
    trim (t ++ right) = trim t :=
  @trim_pad [] right (List.forall_mem_nil _) h t

theorem exists_pad (t : Text) : ∃ left right : Text, (∀ c ∈ left, isBlank c = true) ∧
    (∀ c ∈ right, isBlank c = true) ∧ left ++ trim t ++ right = t := by
  have htake : ∀ s : Text, ∀ c ∈ s.takeWhile isBlank, isBlank c = true := fun s =>
    List.all_eq_true.mp List.all_takeWhile
  apply Exists.intro (t.takeWhile isBlank)
  apply Exists.intro ((t.dropWhile isBlank).reverse.takeWhile isBlank).reverse
  refine ⟨htake t, fun c hc => htake _ c (List.mem_reverse.mp hc), ?_⟩
  rw [List.append_assoc, trim, trimRight, ← List.reverse_append, List.takeWhile_append_dropWhile,
    List.reverse_reverse, List.takeWhile_append_dropWhile]

theorem trim_trim (t : Text) : trim (trim t) = trim t := by
  obtain ⟨left, right, hleft, hright, ht⟩ := exists_pad t
  have h := trim_pad hleft hright (trim t)
  rw [ht] at h
  exact h.symm

theorem startsWith_take {keyword t : Text} (h : startsWith keyword t = true) (n : Nat) :
    lower (t.take (min n keyword.length)) = keyword.take n := by
  rw [startsWith, decide_eq_true_eq] at h
  rw [← List.take_take, lower, List.map_take]
  exact congrArg (List.take n) h

end Text

end MipsStepper
