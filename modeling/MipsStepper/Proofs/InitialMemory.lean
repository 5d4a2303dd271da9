import Mathlib.Data.List.Basic
import Mathlib.Data.List.Induction
import MipsStepper.Proofs.SessionHistory

/-!
# The initial memory of a session

Overrides of memory are kept under the texts of their addresses, and one
address has many texts. The text that comes last in the order of texts decides
what the address holds, whenever it was set. So a new override shows unless a
later text of the same address is among the overrides already.
-/

set_option autoImplicit false

namespace MipsStepper
open Text (ofString)

theorem getLast?_eq_some_iff_of_pairwise {α : Type} {R : α → α → Prop} {xs : List α}
    (hasymm : ∀ x y, R x y → ¬ R y x) (h : xs.Pairwise R) (last : α) :
    xs.getLast? = some last ↔ last ∈ xs ∧ ∀ x ∈ xs, x = last ∨ R x last := by
  constructor
  · intro hlast
    obtain ⟨front, rfl⟩ := List.getLast?_eq_some_iff.mp hlast
    have hfront := (List.pairwise_append.mp h).2.2
    refine ⟨by simp, fun x hx => ?_⟩
    rcases List.mem_append.mp hx with hx | hx
    · exact .inr (hfront x hx last (by simp))
    · exact .inl (List.mem_singleton.mp hx)
  · rintro ⟨hmem, hgreatest⟩
    rcases List.eq_nil_or_concat' xs with rfl | ⟨front, end', rfl⟩
    · cases hmem
    · have hfront := (List.pairwise_append.mp h).2.2
      rcases List.mem_append.mp hmem with hm | hm
      · have hlt := hfront last hm end' (by simp)
        rcases hgreatest end' (by simp) with rfl | hgt
        · simp
        · exact absurd hlt (hasymm _ _ hgt)
      · rw [List.mem_singleton.mp hm]
        simp

namespace Overrides

/-- The key that decides an address: the last one, in the order of keys, of
those that denote it. -/
structure Decides (o : Overrides) (a : Word) (key : Text) (v : Word) : Prop where
  entry : o.memory[key]? = some v
  denotes : Literal.read? key = some a
  last : ∀ k ∈ o.memory, Literal.read? k = some a → (compare k key).isLE

theorem applyAddress_cell (m : Memory) (entry : Text × Word) (a : Word) :
    (applyAddress m entry).cells[a]? =
      if Literal.read? entry.1 = some a then some entry.2 else m.cells[a]? := by
  unfold applyAddress
  cases h : Literal.read? entry.1 with
  | none => simp
  | some b => simp [Memory.write, Std.ExtTreeMap.getElem?_insert]

theorem foldl_applyAddress_cell (entries : List (Text × Word)) (m : Memory) (a : Word) :
    (entries.foldl applyAddress m).cells[a]? =
      ((entries.filter fun e => Literal.read? e.1 = some a).getLast?.map Prod.snd).or
        m.cells[a]? := by
  -- The last entry is applied last, so entries are taken off the end.
  induction entries using List.reverseRecOn with
  | nil => simp
  | append_singleton entries e ih =>
    rw [List.foldl_append, List.foldl_cons, List.foldl_nil, applyAddress_cell, ih]
    by_cases h : Literal.read? e.1 = some a <;> simp [List.filter_append, h]

theorem mem_entriesFor (o : Overrides) (a : Word) (key : Text) (v : Word) :
    (key, v) ∈ (o.memory.toList.filter fun e => Literal.read? e.1 = some a) ↔
      o.memory[key]? = some v ∧ Literal.read? key = some a := by
  simp [Std.ExtTreeMap.mem_toList_iff_getElem?_eq_some]

theorem initialMemory_cell_eq_some_iff (o : Overrides) (a v : Word) :
    o.initialMemory.cells[a]? = some v ↔ ∃ key, o.Decides a key v := by
  have hsorted := o.memory.ordered_keys_toList.filter fun e => Literal.read? e.1 = some a
  have hlast := getLast?_eq_some_iff_of_pairwise
    (fun x y hxy hyx => by simp [Std.OrientedCmp.gt_of_lt hxy] at hyx) hsorted
  have hempty : Memory.empty.cells[a]? = none := by simp [Memory.empty]
  rw [initialMemory, foldl_applyAddress_cell, hempty, Option.or_none, Option.map_eq_some_iff]
  constructor
  · rintro ⟨⟨key, v⟩, hl, rfl⟩
    obtain ⟨hmem, hgreatest⟩ := (hlast _).mp hl
    obtain ⟨hentry, hread⟩ := (mem_entriesFor o a key v).mp hmem
    refine ⟨key, hentry, hread, fun k hk hk' => ?_⟩
    have hkentry := Std.ExtTreeMap.getElem?_eq_some_getElem hk
    rcases hgreatest _ ((mem_entriesFor o a k _).mpr ⟨hkentry, hk'⟩) with heq | hlt
    · simp [(Prod.mk.inj heq).1]
    · simp [hlt]
  · rintro ⟨key, hentry, hread, hgreatest⟩
    refine ⟨(key, v), (hlast _).mpr ⟨(mem_entriesFor o a key v).mpr ⟨hentry, hread⟩, ?_⟩, rfl⟩
    rintro ⟨k, w⟩ hk
    obtain ⟨hkentry, hk'⟩ := (mem_entriesFor o a k w).mp hk
    have hle := hgreatest k (Std.ExtTreeMap.mem_iff_isSome_getElem?.mpr (by simp [hkentry])) hk'
    rcases Ordering.isLE_iff_eq_lt_or_eq_eq.mp hle with hlt | heq
    · exact .inr hlt
    · obtain rfl := Std.LawfulEqCmp.eq_of_compare heq
      rw [hentry] at hkentry
      exact .inl (by rw [Option.some.inj hkentry])

theorem read_initialMemory (o : Overrides) (a : Word) :
    o.initialMemory.read a = (o.initialMemory.cells[a]?).getD 0 := rfl

def setCell (o : Overrides) (key : Text) (v : Word) : Overrides :=
  { o with memory := o.memory.insert key v }

/-- The key of an address that is set, under a later text than the given one. -/
def LaterKey (o : Overrides) (a : Word) (key : Text) : Prop :=
  ∃ k ∈ o.memory, Literal.read? k = some a ∧ compare key k = .lt

section SetCell
variable {o : Overrides} {key : Text} {a : Word}

theorem setCell_entry (o : Overrides) (key k : Text) (v : Word) :
    (o.setCell key v).memory[k]? = if key = k then some v else o.memory[k]? := by
  simp [setCell, Std.ExtTreeMap.getElem?_insert]

theorem mem_setCell (o : Overrides) (key k : Text) (v : Word) :
    k ∈ (o.setCell key v).memory ↔ key = k ∨ k ∈ o.memory := by
  simp [setCell, Std.ExtTreeMap.mem_insert]

theorem cell_congr {o o' : Overrides} {a : Word}
    (h : ∀ key v, o.Decides a key v ↔ o'.Decides a key v) :
    o.initialMemory.cells[a]? = o'.initialMemory.cells[a]? := by
  apply Option.ext
  intro v
  simp only [initialMemory_cell_eq_some_iff, h]

theorem setCell_other (hkey : Literal.read? key = some a) (v : Word) {b : Word} (hb : b ≠ a) :
    (o.setCell key v).initialMemory.cells[b]? = o.initialMemory.cells[b]? := by
  have hne : ∀ k, Literal.read? k = some b → key ≠ k := by
    rintro k hk rfl
    exact hb (Option.some.inj (hk.symm.trans hkey))
  apply cell_congr
  intro k w
  constructor
  · rintro ⟨hentry, hk, hlast⟩
    rw [setCell_entry, if_neg (hne k hk)] at hentry
    exact ⟨hentry, hk, fun j hj => hlast j ((mem_setCell o key j v).mpr (.inr hj))⟩
  · rintro ⟨hentry, hk, hlast⟩
    refine ⟨by rw [setCell_entry, if_neg (hne k hk), hentry], hk, fun j hj hj' => ?_⟩
    rcases (mem_setCell o key j v).mp hj with rfl | hj
    · exact absurd rfl (hne _ hj')
    · exact hlast j hj hj'

theorem setCell_last (hkey : Literal.read? key = some a) (v : Word)
    (h : ¬ o.LaterKey a key) : (o.setCell key v).initialMemory.cells[a]? = some v := by
  refine (initialMemory_cell_eq_some_iff _ a v).mpr ⟨key, ?_, hkey, fun k hk hk' => ?_⟩
  · rw [setCell_entry, if_pos rfl]
  · rcases (mem_setCell o key k v).mp hk with rfl | hk
    · simp
    · cases hc : compare k key with
      | lt => rfl
      | eq => rfl
      | gt => exact absurd ⟨k, hk, hk', Std.OrientedCmp.lt_of_gt hc⟩ h

theorem setCell_hidden (v : Word) (h : o.LaterKey a key) :
    (o.setCell key v).initialMemory.cells[a]? = o.initialMemory.cells[a]? := by
  obtain ⟨later, hmem, hread, hlt⟩ := h
  -- Whatever decides the address is not before the later text, hence not the new key.
  have hne : ∀ k, (compare later k).isLE → key ≠ k := by
    rintro k hle rfl
    simp [Std.OrientedCmp.gt_of_lt hlt] at hle
  apply cell_congr
  intro k w
  constructor
  · rintro ⟨hentry, hk, hlast⟩
    have hle := hlast later ((mem_setCell o key later v).mpr (.inr hmem)) hread
    rw [setCell_entry, if_neg (hne k hle)] at hentry
    exact ⟨hentry, hk, fun j hj => hlast j ((mem_setCell o key j v).mpr (.inr hj))⟩
  · rintro ⟨hentry, hk, hlast⟩
    have hle := hlast later hmem hread
    refine ⟨by rw [setCell_entry, if_neg (hne k hle), hentry], hk, fun j hj hj' => ?_⟩
    rcases (mem_setCell o key j v).mp hj with rfl | hj
    · rw [Std.TransCmp.lt_of_lt_of_isLE hlt hle]
      rfl
    · exact hlast j hj hj'

end SetCell

end Overrides

theorem Literal.ne_nil_of_read? {t : Text} {v : Word} (h : Literal.read? t = some v) : t ≠ [] := by
  rintro rfl
  have hnil : Literal.read? [] = none := by decide +kernel
  simp [hnil] at h

namespace Session

def setmemLine (address value : Text) : Text := ofString "setmem " ++ address ++ ' ' :: value

theorem ofLine_setmemLine {address value : Text}
    (ha : address ≠ []) (hawords : ∀ c ∈ address, Text.isBlank c = false)
    (hv : value ≠ []) (hvwords : ∀ c ∈ value, Text.isBlank c = false) :
    Command.ofLine (setmemLine address value) = .setMemory address value := by
  have hline : setmemLine address value = ofString "setmem" ++ ' ' :: (address ++ ' ' :: value) := by
    simp [setmemLine, Text.ofString_eq]
  have hverb : Verb.named? (Text.lower (ofString "setmem")) = some .setmem := by decide +kernel
  have hword := not_blank_of_all (w := ofString "setmem") (by decide +kernel)
  rw [hline, Command.ofLine, words_cons (by decide +kernel) hword rfl,
    words_cons ha hawords rfl, words_singleton hv hvwords]
  simp [hverb, Command.ofVerb]

theorem setMemory_session {s : Session} {t : Trail} (ht : s.trail = some t)
    {address value : Text} {a v : Word} (ha : Literal.read? address = some a)
    (hv : Literal.read? value = some v) :
    (s.setMemory address value).session =
      { overrides := s.overrides.setCell address v
        trail := some (Trail.fresh t.source t.program (s.overrides.setCell address v)) } := by
  simp only [setMemory, ha, hv, override, ht, reset, move]
  rfl

/-- Setting a cell of a loaded session starts the trail again. The cell holds
the new value unless an override of the same address stands under a later
text, which then decides as before, and every other cell holds what it held
at the start. -/
theorem after_setmem (files : Files) (requests : List Request) {t : Trail}
    (ht : (after files requests).trail = some t) {address value : Text} {a v : Word}
    (haword : ∀ c ∈ address, Text.isBlank c = false) (ha : Literal.read? address = some a)
    (hvword : ∀ c ∈ value, Text.isBlank c = false) (hv : Literal.read? value = some v) :
    let s := after files requests
    let s' := after files (requests ++ [.line (setmemLine address value)])
    ∃ first m, s.history[0]? = some first ∧ s'.history = [m] ∧ s'.current? = some m ∧
      m = Machine.start t.program t.source s'.overrides ∧
      (∀ b, b ≠ a → m.memory.read b = first.memory.read b) ∧
      (¬ s.overrides.LaterKey a address → m.memory.read a = v) ∧
      (s.overrides.LaterKey a address → m.memory.read a = first.memory.read a) := by
  intro s s'
  have hs' : s' =
      { overrides := s.overrides.setCell address v
        trail := some (Trail.fresh t.source t.program (s.overrides.setCell address v)) } := by
    have hcommand := ofLine_setmemLine (Literal.ne_nil_of_read? ha) haword
      (Literal.ne_nil_of_read? hv) hvword
    have hlast : s' = s.answer files (.line (setmemLine address value)) := by simp [s', s, after]
    rw [hlast, answer, execute, hcommand, perform, setMemory_session ht ha hv]
  have hfirst : s.history[0]? = some (Machine.start t.program t.source s.overrides) := by
    have h := (after_faithful files requests t ht).first
    simpa [s, history, ht, List.head?_eq_getElem?] using h
  refine ⟨_, Machine.start t.program t.source s'.overrides, hfirst, ?_, ?_, rfl, ?_, ?_, ?_⟩
  · rw [hs']
    rfl
  · rw [hs']
    rfl
  all_goals simp only [hs', Machine.start, Overrides.read_initialMemory]
  · intro b hb
    rw [Overrides.setCell_other ha v hb]
  · intro h
    rw [Overrides.setCell_last ha v h]
    rfl
  · intro h
    rw [Overrides.setCell_hidden v h]

theorem after_setmem_later_spelling :
    let files : Files := fun _ => none
    let requests := [Request.source (ofString "lw $t0, 32"), .line (ofString "setmem 0x20 7")]
    let s' := after files (requests ++ [.line (setmemLine (ofString "32") (ofString "9"))])
    (after files requests).isLoaded ∧ Literal.read? (ofString "32") = some 32 ∧
      Literal.read? (ofString "9") = some 9 ∧ ∃ m, s'.history = [m] ∧ m.memory.read 32 = 9 := by
  intro files requests s'
  have hloaded : (after files requests).isLoaded := by decide +kernel
  have ha : Literal.read? (ofString "32") = some 32 := by decide +kernel
  have hv : Literal.read? (ofString "9") = some 9 := by decide +kernel
  obtain ⟨t, ht⟩ := Option.isSome_iff_exists.mp hloaded
  obtain ⟨_, m, _, hhistory, _, _, _, hread, _⟩ :=
    after_setmem files requests ht (not_blank_of_all (by decide +kernel)) ha
      (not_blank_of_all (by decide +kernel)) hv
  refine ⟨hloaded, ha, hv, m, hhistory, hread ?_⟩
  rintro ⟨k, hk, _, hlt⟩
  have hkeys : (after files requests).overrides.memory.keys = [ofString "0x20"] := by
    decide +kernel
  rw [← Std.ExtTreeMap.mem_keys, hkeys, List.mem_singleton] at hk
  rw [hk] at hlt
  revert hlt
  decide +kernel

/-- An override that was set last and does not show: `0x20` is before `32` in
the order of texts. -/
theorem setmem_hidden_spelling :
    let files : Files := fun _ => none
    let requests := [Request.source (ofString "lw $t0, 32"), .line (ofString "setmem 32 7")]
    let s' := after files (requests ++ [.line (setmemLine (ofString "0x20") (ofString "9"))])
    (after files requests).isLoaded ∧ Literal.read? (ofString "0x20") = some 32 ∧
      Literal.read? (ofString "9") = some 9 ∧
      s'.current?.map (fun m => m.memory.read 32) = some 7 := by
  decide +kernel

end Session

end MipsStepper
