import Mathlib.Algebra.Ring.Int.Defs
import Mathlib.Algebra.Ring.Nat
import MipsStepper.Proofs.Storage
import MipsStepper.Proofs.Targets

/-!
# The layout of the data segment

The storage directives of a source take blocks of addresses one after the
other, from the base of the data segment on. A source of less than 2^29 bytes
takes so little room that the 32-bit cursor never wraps. So no string is
written over another, and the addresses of strings and of labels are the
starts of their blocks.
-/

set_option autoImplicit false

namespace MipsStepper
open Text (ofString)

/-- The addresses from `start` on that one directive takes. -/
structure Block where
  start : Int
  directive : Directive
deriving DecidableEq

namespace Block

def stop (b : Block) : Int := b.start + b.directive.size

def payload? (b : Block) : Option Text :=
  match b.directive with
  | .asciiz t => some t
  | .word _ => none

theorem start_lt_stop (b : Block) : b.start < b.stop := by
  have h := b.directive.size_pos
  unfold stop
  omega

end Block

/-- The blocks of directives that are laid out from an address on, without gaps. -/
def layout : Int → List Directive → List Block
  | _, [] => []
  | a, d :: ds => ⟨a, d⟩ :: layout (a + d.size) ds

def room : List Directive → Nat
  | [] => 0
  | d :: ds => d.size + room ds

theorem room_append (ds es : List Directive) : room (ds ++ es) = room ds + room es := by
  induction ds with
  | nil => simp [room]
  | cons d ds ih =>
    simp only [List.cons_append, room, ih]
    omega

theorem layout_append (a : Int) (ds es : List Directive) :
    layout a (ds ++ es) = layout a ds ++ layout (a + room ds) es := by
  induction ds generalizing a with
  | nil => simp [layout, room]
  | cons d ds ih =>
    have hnext : a + d.size + room ds = a + room (d :: ds) := by
      simp only [room]
      omega
    simp [layout, ih, hnext]

theorem layout_directives (a : Int) (ds : List Directive) :
    (layout a ds).map Block.directive = ds := by
  induction ds generalizing a with
  | nil => rfl
  | cons d ds ih => simp [layout, ih]

theorem layout_head (a : Int) (ds : List Directive) :
    ∀ b, (layout a ds).head? = some b → b.start = a := by
  cases ds with
  | nil => simp [layout]
  | cons d ds => simp [layout]

theorem layout_consecutive (a : Int) (ds : List Directive) :
    (layout a ds).IsChain fun b c => b.stop = c.start := by
  induction ds generalizing a with
  | nil => exact .nil
  | cons d ds ih =>
    cases ds with
    | nil => exact .singleton _
    | cons e ds => exact .cons_cons rfl (ih _)

theorem layout_within (a : Int) (ds : List Directive) :
    ∀ b ∈ layout a ds, a ≤ b.start ∧ b.stop ≤ a + room ds := by
  induction ds generalizing a with
  | nil => simp [layout]
  | cons d ds ih =>
    intro b hb
    rcases List.mem_cons.mp hb with rfl | hb
    · simp only [Block.stop, room]
      omega
    · have h := ih _ b hb
      simp only [room]
      omega

theorem layout_disjoint (a : Int) (ds : List Directive) :
    (layout a ds).Pairwise fun b c => b.stop ≤ c.start := by
  induction ds generalizing a with
  | nil => exact List.Pairwise.nil
  | cons d ds ih => exact List.Pairwise.cons (fun c hc => (layout_within _ ds c hc).1) (ih _)

theorem mem_layout_singleton {a : Int} {b : Block} {d : Directive} :
    b ∈ layout a [d] ↔ b = ⟨a, d⟩ := by
  simp [layout]

namespace Draft

def blocks (lines : List Text) : List Block := layout dataBase.toInt (storage .text lines)

def freeFrom (lines : List Text) : Int := dataBase.toInt + room (storage .text lines)

def Fits (lines : List Text) : Prop := freeFrom lines < 2 ^ 31

theorem freeFrom_append_le (before after : List Text) :
    freeFrom before ≤ freeFrom (before ++ after) := by
  unfold freeFrom
  rw [storage_append, room_append]
  omega

theorem Fits.front {before after : List Text} (h : Fits (before ++ after)) : Fits before :=
  Int.lt_of_le_of_lt (freeFrom_append_le before after) h

theorem freeFrom_concat (lines : List Text) (raw : Text) :
    freeFrom (lines ++ [raw]) =
      freeFrom lines + room (storedBy (lines.foldl segmentAfter .text) raw).toList := by
  unfold freeFrom
  rw [storage_concat, room_append]
  omega

theorem blocks_concat (lines : List Text) (raw : Text) :
    blocks (lines ++ [raw]) =
      blocks lines ++
        layout (freeFrom lines) (storedBy (lines.foldl segmentAfter .text) raw).toList := by
  rw [blocks, storage_concat, layout_append]
  rfl

/-- The cursor never wraps: it is the base and the room that is taken. -/
theorem cursor_ofLines {lines : List Text} (h : Fits lines) :
    (ofLines lines).cursor.toInt = freeFrom lines := by
  induction lines using List.reverseRecOn with
  | nil => rfl
  | append_singleton lines raw ih =>
    have hcursor := ih h.front
    unfold Fits at h
    rw [ofLines_concat, read_cursor, ofLines_segment, hcursor]
    rw [freeFrom_concat] at h ⊢
    cases hs : storedBy (lines.foldl segmentAfter .text) raw with
    | none => simpa [hs, room] using hcursor
    | some x =>
      have hroom : room (some x).toList = x.size := by simp [room]
      have hbase : 0 ≤ dataBase.toInt := by decide
      rw [hs, hroom] at h
      rw [hroom]
      unfold freeFrom at h ⊢
      exact Int32.toInt_ofInt_of_le (by omega) h

/-- A block holds a string of the draft exactly if the draft has the string at
its start. The next string starts at an address that no block has reached. -/
theorem string_ofLines_iff {lines : List Text} (h : Fits lines) (a : Word) (t : Text) :
    (ofLines lines).strings[a]? = some t ↔ ⟨a.toInt, .asciiz t⟩ ∈ blocks lines := by
  induction lines using List.reverseRecOn with
  | nil => simp [ofLines, blocks, storage, layout]
  | append_singleton lines raw ih =>
    have hold := ih h.front
    have hcursor := cursor_ofLines h.front
    have hfresh : ∀ d, ⟨freeFrom lines, d⟩ ∉ blocks lines := by
      intro d hd
      have hlt : freeFrom lines < Block.stop ⟨freeFrom lines, d⟩ := Block.start_lt_stop _
      have hle : Block.stop ⟨freeFrom lines, d⟩ ≤ freeFrom lines := (layout_within _ _ _ hd).2
      omega
    rw [ofLines_concat, read_strings, ofLines_segment, blocks_concat, List.mem_append]
    rcases hs : storedBy (lines.foldl segmentAfter .text) raw with _ | ⟨payload⟩ | ⟨count⟩
    · simp [hold, layout]
    · simp only [Std.ExtTreeMap.getElem?_insert, Option.toList_some, mem_layout_singleton,
        Block.mk.injEq, Directive.asciiz.injEq, ← hcursor, Int32.toInt_inj]
      by_cases ha : (ofLines lines).cursor = a
      · subst ha
        rw [hcursor]
        simp [hfresh, eq_comm]
      · simp [ha, hold, Ne.symm ha]
    · simp [hold, mem_layout_singleton]

theorem block_range {lines : List Text} (h : Fits lines) {b : Block} (hb : b ∈ blocks lines) :
    dataBase.toInt ≤ b.start ∧ b.stop < 2 ^ 31 := by
  have hwithin := layout_within _ _ b hb
  exact ⟨hwithin.1, Int.lt_of_le_of_lt hwithin.2 h⟩

def stringBlock (entry : Word × Text) : Block := ⟨entry.1.toInt, .asciiz entry.2⟩

theorem mem_stringBlocks {lines : List Text} (h : Fits lines) (b : Block) :
    b ∈ (ofLines lines).strings.toList.map stringBlock ↔
      b ∈ (blocks lines).filter fun b => b.payload?.isSome := by
  rw [List.mem_map, List.mem_filter]
  constructor
  · rintro ⟨⟨a, t⟩, hentry, rfl⟩
    rw [Std.ExtTreeMap.mem_toList_iff_getElem?_eq_some] at hentry
    exact ⟨(string_ofLines_iff h a t).mp hentry, rfl⟩
  · obtain ⟨start, t | count⟩ := b
    · rintro ⟨hmem, _⟩
      have hrange := block_range h hmem
      have hlow : dataBase.toInt ≤ start := hrange.1
      have hhigh : start < 2 ^ 31 := Int.lt_trans (Block.start_lt_stop _) hrange.2
      have hbase : 0 ≤ dataBase.toInt := by decide
      have hword : (Int32.ofInt start).toInt = start := Int32.toInt_ofInt_of_le (by omega) hhigh
      refine ⟨(Int32.ofInt start, t), ?_, by rw [stringBlock, hword]⟩
      rw [Std.ExtTreeMap.mem_toList_iff_getElem?_eq_some, string_ofLines_iff h, hword]
      exact hmem
    · simp [Block.payload?]

theorem strings_toList {lines : List Text} (h : Fits lines) :
    (ofLines lines).strings.toList.map stringBlock =
      (blocks lines).filter fun b => b.payload?.isSome := by
  have hnodup : ∀ {bs : List Block}, (bs.Pairwise fun b c => b.start < c.start) → bs.Nodup :=
    fun hbs => hbs.imp fun {b c} hlt heq => by simp [heq] at hlt
  have hleft : ((ofLines lines).strings.toList.map stringBlock).Pairwise
      fun b c => b.start < c.start := by
    refine List.pairwise_map.mpr ((ofLines lines).strings.ordered_keys_toList.imp ?_)
    intro x y hxy
    exact Int32.lt_iff_toInt_lt.mp (compareOfLessAndEq_eq_lt.mp hxy)
  have hright : ((blocks lines).filter fun b => b.payload?.isSome).Pairwise
      fun b c => b.start < c.start := by
    refine ((layout_disjoint _ _).imp ?_).filter _
    intro b c hbc
    have hlt := b.start_lt_stop
    omega
  have hperm := (List.perm_ext_iff_of_nodup (hnodup hleft) (hnodup hright)).mpr
    (mem_stringBlocks h)
  exact hperm.eq_of_pairwise (fun b c _ _ hbc hcb => absurd hbc (by omega)) hleft hright

/-- The line after `before` is the first that defines the data label. -/
def FirstDataLabel (before : List Text) (raw label : Text) : Prop :=
  before.foldl segmentAfter .text = .data ∧ definedLabel? raw = some label ∧
    ¬ LabelIn .data before label

theorem exists_firstDataLabel {lines : List Text} {l : Text} (h : LabelIn .data lines l) :
    ∃ before raw after, lines = before ++ raw :: after ∧ FirstDataLabel before raw l := by
  induction lines using List.reverseRecOn with
  | nil =>
    obtain ⟨before, raw, after, hsplit, _⟩ := h
    simp at hsplit
  | append_singleton lines raw ih =>
    by_cases hearlier : LabelIn .data lines l
    · obtain ⟨before, first, after, rfl, hfirst⟩ := ih hearlier
      exact ⟨before, first, after ++ [raw], by simp, hfirst⟩
    · rcases (labelIn_concat .data lines raw l).mp h with hl | ⟨hseg, hdef⟩
      · exact absurd hl hearlier
      · exact ⟨lines, raw, [], rfl, hseg, hdef, hearlier⟩

theorem address?_ofLines_eq_none_iff (lines : List Text) (l : Text) :
    (ofLines lines).symbols.address? l = none ↔ ¬ LabelIn .data lines l := by
  induction lines using List.reverseRecOn with
  | nil => simp [ofLines, Symbols.address?, LabelIn, DefinesAt]
  | append_singleton lines raw ih =>
    rw [ofLines_concat, address?_read, labelIn_concat, ofLines_segment, not_or, ← ih]
    split_ifs with hdef
    · simp [hdef]
    · grind

theorem exists_first_of_address? {lines : List Text} {l : Text} {a : Word}
    (h : (ofLines lines).symbols.address? l = some a) :
    ∃ before raw after, lines = before ++ raw :: after ∧ FirstDataLabel before raw l := by
  apply exists_firstDataLabel
  by_contra hlost
  rw [← address?_ofLines_eq_none_iff, h] at hlost
  cases hlost

theorem address?_first {before : List Text} {raw l : Text} (h : FirstDataLabel before raw l)
    (after : List Text) :
    (ofLines (before ++ raw :: after)).symbols.address? l = some (ofLines before).cursor := by
  induction after using List.reverseRecOn with
  | nil =>
    obtain ⟨hseg, hdef, hfresh⟩ := h
    rw [ofLines_concat, address?_read, ofLines_segment,
      if_pos ⟨hseg, hdef, (address?_ofLines_eq_none_iff before l).mpr hfresh⟩]
  | append_singleton after last ih =>
    rw [← List.cons_append, ← List.append_assoc, ofLines_concat, address?_read, ih]
    simp

theorem byteLength_intercalate_cons (raw : Text) (rest : List Text) :
    Text.byteLength raw + Text.byteLength (['\n'].intercalate rest) ≤
      Text.byteLength (['\n'].intercalate (raw :: rest)) := by
  cases rest with
  | nil => simp [Text.byteLength]
  | cons next rest =>
    rw [List.intercalate_cons_cons, Text.byteLength_append, Text.byteLength_append]
    omega

theorem room_storage_le (s : Segment) (lines : List Text) :
    room (storage s lines) ≤ 2 * Text.byteLength (['\n'].intercalate lines) := by
  induction lines generalizing s with
  | nil => simp [storage, room]
  | cons raw rest ih =>
    have hrest := ih (segmentAfter s raw)
    have hbytes := byteLength_intercalate_cons raw rest
    have hraw : room (storedBy s raw).toList ≤ 2 * Text.byteLength raw := by
      cases hs : storedBy s raw with
      | none => simp [room]
      | some x => simpa [room] using directive?_size_le (storedBy_eq_some hs)
    rw [storage, room_append]
    omega

theorem freeFrom_source_le (source : Text) :
    freeFrom (source.splitOn '\n') ≤ dataBase.toInt + 2 * Text.byteLength source := by
  have h := room_storage_le .text (source.splitOn '\n')
  rw [List.intercalate_splitOn] at h
  unfold freeFrom
  omega

end Draft

/-- The data segment of a loaded source. Its blocks are the storage directives
in source order, from the base on and without gaps; they do not overlap and
stay below twice the length of the source. The string table is the string
blocks, and a data label is the first free address at its first definition, so
that a label before a string leads to that string. -/
theorem load_layout {source : Text} {p : Program} (h : load source = .ok p)
    (hlength : Text.byteLength source < 2 ^ 29) :
    let lines := source.splitOn '\n'
    let blocks := Draft.blocks lines
    blocks.map Block.directive = Draft.storage .text lines ∧
      (∀ b, blocks.head? = some b → b.start = dataBase.toInt) ∧
      (blocks.IsChain fun b c => b.stop = c.start) ∧
      (blocks.Pairwise fun b c => b.stop ≤ c.start) ∧
      (∀ b ∈ blocks, dataBase.toInt ≤ b.start ∧
        b.stop ≤ dataBase.toInt + 2 * Text.byteLength source ∧ b.stop < 2 ^ 31) ∧
      (p.strings.toList.map Draft.stringBlock = blocks.filter fun b => b.payload?.isSome) ∧
      (∀ l a, p.symbols.address? l = some a →
        ∃ before raw after, lines = before ++ raw :: after ∧ Draft.FirstDataLabel before raw l) ∧
      ∀ before raw after l, lines = before ++ raw :: after → Draft.FirstDataLabel before raw l →
        ∃ a, p.symbols.address? l = some a ∧ a.toInt = Draft.freeFrom before ∧
          ∀ t, Draft.directive? raw = some (.asciiz t) → p.string? a = some t := by
  intro lines blocks
  have hbase : dataBase.toInt = 268500992 := by decide
  have hroom := Draft.freeFrom_source_le source
  have hfits : Draft.Fits lines := Int.lt_of_le_of_lt hroom (by omega)
  rw [load_eq_ok h]
  refine ⟨layout_directives _ _, layout_head _ _, layout_consecutive _ _, layout_disjoint _ _, ?_,
    Draft.strings_toList hfits, fun l a => Draft.exists_first_of_address?, ?_⟩
  · intro b hb
    have hwithin := layout_within _ _ b hb
    exact ⟨hwithin.1, Int.le_trans hwithin.2 hroom, (Draft.block_range hfits hb).2⟩
  · intro before raw after l hsplit hfirst
    have haddress := Draft.address?_first hfirst after
    rw [← hsplit] at haddress
    have hcursor := Draft.cursor_ofLines (hsplit ▸ hfits).front
    refine ⟨_, haddress, hcursor, fun t ht => ?_⟩
    -- The string stands at the cursor before its line, which is where the label points.
    refine (Draft.string_ofLines_iff hfits _ t).mpr ?_
    have hstored : Draft.storedBy .data raw = some (.asciiz t) := ht
    rw [hsplit, Draft.blocks, Draft.storage_append, layout_append, hfirst.1, Draft.storage, hstored,
      hcursor]
    simp [layout, Draft.freeFrom]

/-- A label that is defined twice, a directive that takes no room, and two
strings, one of them empty. -/
theorem load_layout_twice :
    let source := ofString
      ".data\na: .word 1,,2\na: .asciiz \"x\\n\"\n.space 4\nb: .asciiz \"\"\n.text\nsyscall"
    Text.byteLength source < 2 ^ 29 ∧ ∃ p, load source = .ok p ∧
      p.strings.toList.map Draft.stringBlock =
        [⟨268501000, .asciiz (ofString "x\n")⟩, ⟨268501003, .asciiz []⟩] ∧
      p.symbols.address? (ofString "a") = some dataBase := by
  intro source
  have hlength : Text.byteLength source < 2 ^ 29 := by decide +kernel
  have hlines : (Draft.ofSource source).lines ≠ [] := by decide +kernel
  have h : load source = .ok (Draft.ofSource source).program := load_of_lines rfl hlines
  have hlayout := load_layout h hlength
  obtain ⟨_, _, _, _, _, hstrings, _, hlabels⟩ := hlayout
  refine ⟨hlength, _, h, ?_, ?_⟩
  · rw [hstrings]
    decide +kernel
  · have hfirst : Draft.FirstDataLabel [ofString ".data"] (ofString "a: .word 1,,2")
        (ofString "a") := by
      refine ⟨by decide +kernel, by decide +kernel, ?_⟩
      rw [← Draft.address?_ofLines_eq_none_iff]
      decide +kernel
    obtain ⟨a, ha, hstart, _⟩ := hlabels [ofString ".data"] _
      [ofString "a: .asciiz \"x\\n\"", ofString ".space 4", ofString "b: .asciiz \"\"",
        ofString ".text", ofString "syscall"] _ (by decide +kernel) hfirst
    have haddress : a = dataBase := Int32.toInt_inj.mp (hstart.trans (by decide +kernel))
    rw [ha, haddress]

end MipsStepper
