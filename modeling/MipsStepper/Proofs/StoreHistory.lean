import Mathlib.Data.List.Induction
import Mathlib.Data.Set.Card
import MipsStepper.Memory
import MipsStepper.Proofs.RegisterNumbers

/-!
# The history of the stores

The register file and the memory answer as maps do that remember what was
written last to each key since the last reset. Requests come in any order. A
register number outside the table is refused and leaves the file as it was.
The memory tells an address that holds a written zero from one that was never
written, and lists its addresses in the order of their signed values.
-/

set_option autoImplicit false

namespace MipsStepper

inductive Change (κ : Type) where
  | keep
  | write (key : κ) (value : Word)
  | reset
deriving DecidableEq

namespace Change
variable {κ : Type}

/-- The value was written to the key, and the key was not written again and the
store not reset since then. -/
def LastWritten (changes : List (Change κ)) (key : κ) (v : Word) : Prop :=
  ∃ before after, changes = before ++ .write key v :: after ∧ .reset ∉ after ∧
    ∀ w, .write key w ∉ after

def apply [DecidableEq κ] (words : κ → Option Word) : Change κ → κ → Option Word
  | .keep => words
  | .write key v => Function.update words key (some v)
  | .reset => fun _ => none

def words [DecidableEq κ] (changes : List (Change κ)) : κ → Option Word :=
  changes.foldl apply fun _ => none

theorem lastWritten_concat {changes : List (Change κ)} {c : Change κ} {key : κ} {v : Word} :
    LastWritten (changes ++ [c]) key v ↔ c = .write key v ∨
      c ≠ .reset ∧ (∀ w, c ≠ .write key w) ∧ LastWritten changes key v := by
  constructor
  · rintro ⟨before, after, heq, hreset, hwrite⟩
    rcases List.eq_nil_or_concat' after with rfl | ⟨after, last, rfl⟩
    · exact .inl (List.cons.inj (List.append_inj' heq rfl).2).1
    · have hlast : changes ++ [c] = before ++ .write key v :: after ++ [last] := by simpa using heq
      obtain ⟨rfl, hc⟩ := List.append_inj' hlast rfl
      obtain rfl := (List.cons.inj hc).1
      simp only [List.mem_append, List.mem_singleton, not_or] at hreset hwrite
      exact .inr ⟨Ne.symm hreset.2, fun w => Ne.symm (hwrite w).2, before, after, rfl, hreset.1,
        fun w => (hwrite w).1⟩
  · rintro (rfl | ⟨hreset, hwrite, before, after, rfl, hreset', hwrite'⟩)
    · exact ⟨changes, [], rfl, List.not_mem_nil, fun _ => List.not_mem_nil⟩
    · refine ⟨before, after ++ [c], by simp, ?_, fun w => ?_⟩
      · simp [hreset', hreset.symm]
      · simp [hwrite' w, (hwrite w).symm]

variable [DecidableEq κ]

theorem words_concat (changes : List (Change κ)) (c : Change κ) :
    words (changes ++ [c]) = apply (words changes) c := by
  simp [words]

theorem words_eq_some_iff (changes : List (Change κ)) (key : κ) (v : Word) :
    words changes key = some v ↔ LastWritten changes key v := by
  induction changes using List.reverseRecOn with
  | nil => simp [words, LastWritten]
  | append_singleton changes c ih =>
    rw [words_concat, lastWritten_concat, ← ih]
    cases c with
    | keep => simp [apply]
    | write k w =>
      by_cases hk : key = k
      · subst hk
        simp [apply]
      · simp [apply, hk, Ne.symm hk]
    | reset => simp [apply]

theorem words_eq_none_iff (changes : List (Change κ)) (key : κ) :
    words changes key = none ↔ ∀ v, ¬ LastWritten changes key v := by
  simp only [← words_eq_some_iff, Option.eq_none_iff_forall_ne_some, ne_eq]

end Change

namespace RegisterFile

/-- A request to a register file. Registers are given by their numbers. -/
inductive Request where
  | read (index : Int)
  | write (index : Int) (value : Word)
  | clearZero
  | reset
deriving DecidableEq

namespace Request

def index? : Request → Option Int
  | .read i => some i
  | .write i _ => some i
  | _ => none

def change : Request → Change Int
  | .write i v => .write i v
  | .reset => .reset
  | _ => .keep

end Request

def serve (f : RegisterFile) : Request → Except OutOfRange (Option Word) × RegisterFile
  | .read i => ((f.readAt i).map some, f)
  | .write i v =>
    match f.writeAt i v with
    | .ok f' => (.ok none, f')
    | .error e => (.error e, f)
  | .clearZero => (.ok none, f.clearZero)
  | .reset => (.ok none, f.reset)

def after (requests : List Request) : RegisterFile :=
  requests.foldl (fun f q => (f.serve q).2) zeroed

structure Reflects (f : RegisterFile) (requests : List Request) : Prop where
  refused : ∀ q e, (f.serve q).1 = .error e ↔
    ∃ i, q.index? = some i ∧ ¬ (i = -1 ∨ 0 ≤ i ∧ i ≤ 31) ∧ e = ⟨i⟩
  unchanged : ∀ q e, (f.serve q).1 = .error e → (f.serve q).2 = f
  zero : f.cells.get Register.zero = 0
  read : ∀ i : Int, 1 ≤ i → i ≤ 31 → ∃ v, (f.serve (.read i)).1 = .ok (some v) ∧
    (Change.LastWritten (requests.map Request.change) i v ∨
      v = 0 ∧ ∀ w, ¬ Change.LastWritten (requests.map Request.change) i w)

/-- The cells hold the words of a map, and zero where it has none. -/
structure Holds (f : RegisterFile) (words : Int → Option Word) : Prop where
  zero : f.cells.get Register.zero = 0
  cell : ∀ r : Register, r ≠ Register.zero → f.cells.get r = (words r.val).getD 0

section Requests
variable {f : RegisterFile} {words : Int → Option Word}

theorem operand_error {i : Int} (h : ¬ Register.IsIndex i) : operand i = .error ⟨i⟩ := by
  have hnone : i ≠ -1 := by
    rintro rfl
    exact h (by simp [Register.IsIndex])
  have hindex : Register.ofIndex? i = none := by
    rw [Register.ofIndex?, dif_neg]
    rintro ⟨hlt, hnonneg⟩
    exact h ⟨by omega, by omega⟩
  rw [operand, if_neg hnone, hindex]

theorem operand_eq_error_iff {i : Int} {e : OutOfRange} :
    operand i = .error e ↔ ¬ Register.IsIndex i ∧ e = ⟨i⟩ := by
  constructor
  · intro h
    have hrange : ¬ Register.IsIndex i := by
      intro hindex
      obtain ⟨r, rfl⟩ := (Register.isIndex_iff i).mp hindex
      rw [operand_index] at h
      cases h
    rw [operand_error hrange, Except.error.injEq] at h
    exact ⟨hrange, h.symm⟩
  · rintro ⟨hrange, rfl⟩
    exact operand_error hrange

theorem serve_eq_error_iff {q : Request} {e : OutOfRange} :
    (f.serve q).1 = .error e ↔ ∃ i, q.index? = some i ∧ operand i = .error e := by
  cases q with
  | read i => cases h : operand i <;> simp [serve, readAt, Request.index?, h, Except.map]
  | write i v => cases h : operand i <;> simp [serve, writeAt, Request.index?, h, Except.map]
  | clearZero => simp [serve, Request.index?]
  | reset => simp [serve, Request.index?]

theorem serve_refused {q : Request} {e : OutOfRange} (h : (f.serve q).1 = .error e) :
    (f.serve q).2 = f := by
  obtain ⟨i, hi, hoperand⟩ := serve_eq_error_iff.mp h
  cases q with
  | read j => rfl
  | write j v =>
    cases hi
    simp [serve, writeAt, hoperand, Except.map]
  | clearZero => cases hi
  | reset => cases hi

theorem zeroed_get (r : Register) : zeroed.cells.get r = 0 := by
  simp [zeroed, Vector.get]

theorem Holds.update (h : f.Holds words) {i : Int}
    (hi : ∀ r : Register, r ≠ Register.zero → (r.val : Int) ≠ i) (v : Word) :
    f.Holds (Function.update words i (some v)) where
  zero := h.zero
  cell r hr := by rw [Function.update_of_ne (hi r hr), h.cell r hr]

theorem write_holds (h : f.Holds words) (r : Option Register) (v : Word) :
    (f.write r v).Holds (Function.update words (Register.index r) (some v)) := by
  cases r with
  | none =>
    apply h.update
    intro r _
    simp only [Register.index]
    omega
  | some d =>
    by_cases hd : d = Register.zero
    · rw [write, if_pos hd]
      apply h.update
      rintro r hr heq
      apply hr
      rw [hd] at heq
      exact Fin.ext (Int.ofNat.inj heq)
    · rw [write, if_neg hd]
      constructor
      · rw [get_set, if_neg hd, h.zero]
      · intro r hr
        rw [get_set]
        by_cases heq : d = r
        · subst heq
          simp [Register.index]
        · have hne : (r.val : Int) ≠ d.val := fun hval => heq (Fin.ext (Int.ofNat.inj hval)).symm
          rw [if_neg heq, h.cell r hr, Register.index, Function.update_of_ne hne]

theorem serve_holds (h : f.Holds words) (q : Request) :
    (f.serve q).2.Holds (q.change.apply words) := by
  cases q with
  | read i => exact h
  | write i v =>
    by_cases hindex : Register.IsIndex i
    · obtain ⟨r, rfl⟩ := (Register.isIndex_iff i).mp hindex
      have hserve : (f.serve (.write (Register.index r) v)).2 = f.write r v := by
        simp [serve, writeAt, operand_index, Except.map]
      rw [hserve]
      exact write_holds h r v
    · have hrefused : (f.serve (.write i v)).1 = .error ⟨i⟩ :=
        serve_eq_error_iff.mpr ⟨i, rfl, operand_error hindex⟩
      rw [serve_refused hrefused]
      apply h.update
      rintro r - rfl
      exact hindex ⟨by omega, by omega⟩
  | clearZero =>
    have hcells : ∀ r, f.clearZero.cells.get r = if Register.zero = r then 0 else f.cells.get r :=
      fun r => get_set f.cells Register.zero r 0
    show f.clearZero.Holds words
    constructor
    · rw [hcells, if_pos rfl]
    · intro r hr
      rw [hcells, if_neg (Ne.symm hr), h.cell r hr]
  | reset =>
    constructor
    · exact zeroed_get Register.zero
    · intro r _
      exact zeroed_get r

theorem after_holds (requests : List Request) :
    (after requests).Holds (Change.words (requests.map Request.change)) := by
  induction requests using List.reverseRecOn with
  | nil => exact ⟨zeroed_get _, fun r _ => zeroed_get r⟩
  | append_singleton requests q ih =>
    have hafter : after (requests ++ [q]) = ((after requests).serve q).2 := by simp [after]
    rw [hafter, List.map_append, List.map_singleton, Change.words_concat]
    exact serve_holds ih q

theorem Holds.read (h : f.Holds words) {i : Int} (hlow : 1 ≤ i) (hhigh : i ≤ 31) :
    (f.serve (.read i)).1 = .ok (some ((words i).getD 0)) := by
  obtain ⟨n, rfl⟩ := Int.eq_ofNat_of_zero_le (by omega : 0 ≤ i)
  have hlt : n < 32 := by omega
  have hzero : (⟨n, hlt⟩ : Register) ≠ Register.zero := by
    intro heq
    have hn : n = 0 := congrArg Fin.val heq
    omega
  have hoperand : operand n = .ok (some ⟨n, hlt⟩) := operand_index (some ⟨n, hlt⟩)
  simp [serve, readAt, hoperand, Except.map, RegisterFile.read, hzero, h.cell _ hzero]

theorem after_reflects (requests : List Request) : (after requests).Reflects requests := by
  have h := after_holds requests
  constructor
  · intro q e
    rw [serve_eq_error_iff]
    apply exists_congr
    intro i
    rw [operand_eq_error_iff, Register.IsIndex]
    have hrange : ¬ (-1 ≤ i ∧ i ≤ 31) ↔ ¬ (i = -1 ∨ 0 ≤ i ∧ i ≤ 31) := by omega
    rw [hrange]
  · exact fun q e => serve_refused
  · exact h.zero
  · intro i hlow hhigh
    refine ⟨_, h.read hlow hhigh, ?_⟩
    cases hword : Change.words (requests.map Request.change) i with
    | none => exact .inr ⟨rfl, (Change.words_eq_none_iff _ i).mp hword⟩
    | some v => exact .inl ((Change.words_eq_some_iff _ i v).mp hword)

end Requests

end RegisterFile

namespace Memory

def change (m : Memory) : Change Word → Memory
  | .keep => m
  | .write a v => m.write a v
  | .reset => m.reset

def after (changes : List (Change Word)) : Memory := changes.foldl change empty

structure Reflects (m : Memory) (changes : List (Change Word)) : Prop where
  read : ∀ a, Change.LastWritten changes a (m.read a) ∨
    m.read a = 0 ∧ ∀ v, ¬ Change.LastWritten changes a v
  contains : ∀ a, m.contains a = true ↔ ∃ v, Change.LastWritten changes a v
  size : m.size = {a | ∃ v, Change.LastWritten changes a v}.ncard
  listed : ∀ a v, (a, v) ∈ m.toList ↔ Change.LastWritten changes a v
  ascending : m.toList.Pairwise fun x y => x.1.toInt < y.1.toInt

theorem after_cell (changes : List (Change Word)) (a : Word) :
    (after changes).cells[a]? = Change.words changes a := by
  induction changes using List.reverseRecOn with
  | nil => simp [after, empty, Change.words]
  | append_singleton changes c ih =>
    have hafter : after (changes ++ [c]) = (after changes).change c := by simp [after]
    rw [hafter, Change.words_concat]
    cases c with
    | keep => exact ih
    | write b v =>
      by_cases hab : a = b
      · subst hab
        simp [change, write, Change.apply]
      · simp [change, write, Change.apply, Std.ExtTreeMap.getElem?_insert, hab, Ne.symm hab, ih]
    | reset => simp [change, reset, empty, Change.apply]

theorem toList_ascending (m : Memory) : m.toList.Pairwise fun x y => x.1.toInt < y.1.toInt :=
  m.cells.ordered_keys_toList.imp fun h => Int32.lt_iff_toInt_lt.mp (compareOfLessAndEq_eq_lt.mp h)

theorem size_eq_ncard (m : Memory) : m.size = {a | m.contains a = true}.ncard := by
  have hnodup : m.cells.keys.Nodup := m.cells.nodup_keys
  have hset : {a | m.contains a = true} = ↑m.cells.keys.toFinset := by
    ext a
    simp [contains, Std.ExtTreeMap.mem_keys]
  rw [hset, Set.ncard_coe_finset, List.toFinset_card_of_nodup hnodup, size,
    Std.ExtTreeMap.length_keys]

theorem after_reflects (changes : List (Change Word)) : (after changes).Reflects changes := by
  have hcell : ∀ a v, (after changes).cells[a]? = some v ↔ Change.LastWritten changes a v := by
    intro a v
    rw [after_cell, Change.words_eq_some_iff]
  have hcontains : ∀ a,
      (after changes).contains a = true ↔ ∃ v, Change.LastWritten changes a v := by
    intro a
    rw [contains, Std.ExtTreeMap.contains_eq_isSome_getElem?, Option.isSome_iff_exists]
    simp only [hcell]
  constructor
  · intro a
    rw [read, ← hcell]
    simp only [← hcell]
    cases (after changes).cells[a]? <;> simp
  · exact hcontains
  · rw [size_eq_ncard]
    simp only [hcontains]
  · intro a v
    rw [toList, Std.ExtTreeMap.mem_toList_iff_getElem?_eq_some, hcell]
  · exact toList_ascending _

-- A written zero is a cell, negative addresses come first, a reset leaves nothing behind.
example : (after [.write 4 9, .reset, .write 8 3, .write (-8) 5, .write 8 0]).toList =
    [(-8, 5), (8, 0)] := by
  decide +kernel

end Memory

/-- After any requests the two stores answer as maps of what was last written. -/
theorem stores_reflect_history :
    (∀ requests, (RegisterFile.after requests).Reflects requests) ∧
      ∀ changes, (Memory.after changes).Reflects changes :=
  ⟨RegisterFile.after_reflects, Memory.after_reflects⟩

end MipsStepper
