import MipsStepper.Proofs.ByteOrder
import MipsStepper.Proofs.ListingLines
import MipsStepper.Proofs.Reachable
import MipsStepper.Proofs.SessionHistory

/-!
# The order of a listing

A listing has every instruction under its index and every text label before
the instruction that it leads to, those at the end of the program last. The
lines are in the order of their positions in the program. The snapshot that is
listed is inside its program or at its end, so that the arrow stands at one
instruction or, at the end, nowhere.
-/

set_option autoImplicit false

namespace MipsStepper
open Text (ofString)

namespace Symbols
variable {s : Symbols}

theorem mem_labelsAt {name : Text} {index : Int} :
    name ∈ s.labelsAt index ↔ s.index? name = some index := by
  simp [labelsAt, index?, Std.ExtTreeMap.mem_toList_iff_getElem?_eq_some]

theorem labelsAt_ascending (s : Symbols) (index : Int) :
    (s.labelsAt index).Pairwise fun a b => a.bytes < b.bytes := by
  have hsorted := s.labels.ordered_keys_toList.filter fun entry => entry.2 = index
  exact hsorted.map Prod.fst fun _ _ h => Text.bytes_lt_iff.mpr h

end Symbols

namespace ListingLine

def index? : ListingLine → Option Nat
  | .label _ => none
  | .instruction index _ => some index

def Leads : ListingLine → ListingLine → Prop
  | .label a, .label b => a.bytes < b.bytes
  | .label _, .instruction _ _ => True
  | .instruction _ _, _ => False

theorem not_leads_self (x : ListingLine) : ¬ x.Leads x := by
  cases x with
  | label name => exact List.lt_irrefl name.bytes
  | instruction index i => exact not_false

end ListingLine

namespace Program

/-- Where a line belongs: a label where it leads, an instruction at its index. -/
def position? (p : Program) : ListingLine → Option Int
  | .label name => p.symbols.index? name
  | .instruction index _ => some index

def Precedes (p : Program) (x y : ListingLine) : Prop :=
  ∃ i j, p.position? x = some i ∧ p.position? y = some j ∧ (i < j ∨ i = j ∧ x.Leads y)

/-- The lines are the whole program, each of its instructions and labels once,
in the order of their positions. -/
structure ListedBy (p : Program) (lines : List ListingLine) : Prop where
  instruction : ∀ index i, .instruction index i ∈ lines ↔ p.instructions[index]? = some i
  label : ∀ name, .label name ∈ lines ↔ ∃ index, p.symbols.index? name = some index
  once : lines.Nodup
  ordered : lines.Pairwise p.Precedes
  indices : lines.filterMap ListingLine.index? = List.range p.size

section Listing
variable {p : Program} {index : Nat} {is : List Instruction}

theorem not_precedes_self (x : ListingLine) : ¬ p.Precedes x x := by
  rintro ⟨i, j, hi, hj, hlt | ⟨-, hleads⟩⟩
  · rw [hi, Option.some.injEq] at hj
    omega
  · exact x.not_leads_self hleads

theorem mem_listingFrom_instruction {k : Nat} {i : Instruction} :
    .instruction k i ∈ p.listingFrom index is ↔ index ≤ k ∧ is[k - index]? = some i := by
  induction is generalizing index with
  | nil => simp [listingFrom]
  | cons j rest ih =>
    have hmem : .instruction k i ∈ p.listingFrom index (j :: rest) ↔
        k = index ∧ i = j ∨ .instruction k i ∈ p.listingFrom (index + 1) rest := by
      simp [listingFrom]
    have hsub : index < k → k - index = k - (index + 1) + 1 := by omega
    rw [hmem, ih]
    constructor
    · rintro (⟨rfl, rfl⟩ | ⟨hle, hi⟩)
      · simp
      · rw [hsub hle, List.getElem?_cons_succ]
        exact ⟨Nat.le_of_succ_le hle, hi⟩
    · rintro ⟨hle, hi⟩
      obtain rfl | hlt := Nat.eq_or_lt_of_le hle
      · exact .inl ⟨rfl, by simpa [eq_comm] using hi⟩
      · rw [hsub hlt, List.getElem?_cons_succ] at hi
        exact .inr ⟨hlt, hi⟩

theorem mem_listingFrom_label {name : Text} :
    .label name ∈ p.listingFrom index is ↔
      ∃ k : Nat, index ≤ k ∧ k ≤ index + is.length ∧ p.symbols.index? name = some (k : Int) := by
  induction is generalizing index with
  | nil =>
    have hmem : .label name ∈ p.listingFrom index [] ↔
        p.symbols.index? name = some (index : Int) := by
      simp [listingFrom, Symbols.mem_labelsAt]
    rw [hmem]
    constructor
    · exact fun h => ⟨index, Nat.le_refl _, Nat.le_refl _, h⟩
    · rintro ⟨k, hle, hge, h⟩
      obtain rfl : index = k := Nat.le_antisymm hle hge
      exact h
  | cons j rest ih =>
    have hmem : .label name ∈ p.listingFrom index (j :: rest) ↔
        p.symbols.index? name = some (index : Int) ∨
          .label name ∈ p.listingFrom (index + 1) rest := by
      simp [listingFrom, Symbols.mem_labelsAt]
    rw [hmem, ih, List.length_cons]
    constructor
    · rintro (h | ⟨k, hle, hge, h⟩)
      · exact ⟨index, Nat.le_refl _, by omega, h⟩
      · exact ⟨k, by omega, by omega, h⟩
    · rintro ⟨k, hle, hge, h⟩
      obtain rfl | hlt := Nat.eq_or_lt_of_le hle
      · exact .inl h
      · exact .inr ⟨k, hlt, by omega, h⟩

theorem position_of_mem_listingFrom {x : ListingLine} (h : x ∈ p.listingFrom index is) :
    ∃ k : Nat, index ≤ k ∧ p.position? x = some (k : Int) := by
  cases x with
  | label name =>
    obtain ⟨k, hle, -, hk⟩ := mem_listingFrom_label.mp h
    exact ⟨k, hle, hk⟩
  | instruction k i => exact ⟨k, (mem_listingFrom_instruction.mp h).1, rfl⟩

theorem labels_ordered (p : Program) (index : Int) :
    ((p.symbols.labelsAt index).map ListingLine.label).Pairwise p.Precedes := by
  apply List.pairwise_map.mpr
  apply (p.symbols.labelsAt_ascending index).imp_of_mem
  intro a b ha hb hlt
  exact ⟨index, index, Symbols.mem_labelsAt.mp ha, Symbols.mem_labelsAt.mp hb, .inr ⟨rfl, hlt⟩⟩

theorem listingFrom_ordered (p : Program) (index : Nat) (is : List Instruction) :
    (p.listingFrom index is).Pairwise p.Precedes := by
  induction is generalizing index with
  | nil => exact p.labels_ordered index
  | cons i rest ih =>
    have hrest : ∀ x ∈ p.listingFrom (index + 1) rest,
        ∃ j, p.position? x = some j ∧ (index : Int) < j := by
      intro x hx
      obtain ⟨k, hle, hk⟩ := position_of_mem_listingFrom hx
      exact ⟨k, hk, by omega⟩
    have hinstruction : ∀ x ∈ p.listingFrom (index + 1) rest,
        p.Precedes (.instruction index i) x := by
      intro x hx
      obtain ⟨j, hj, hlt⟩ := hrest x hx
      exact ⟨index, j, rfl, hj, .inl hlt⟩
    rw [listingFrom]
    refine List.pairwise_append.mpr
      ⟨p.labels_ordered index, List.pairwise_cons.mpr ⟨hinstruction, ih (index + 1)⟩, ?_⟩
    intro x hx y hy
    obtain ⟨name, hname, rfl⟩ := List.mem_map.mp hx
    have hposition : p.position? (.label name) = some (index : Int) := Symbols.mem_labelsAt.mp hname
    rcases List.mem_cons.mp hy with rfl | hy
    · exact ⟨index, index, hposition, rfl, .inr ⟨rfl, trivial⟩⟩
    · obtain ⟨j, hj, hlt⟩ := hrest y hy
      exact ⟨index, j, hposition, hj, .inl hlt⟩

theorem listingFrom_indices (p : Program) (index : Nat) (is : List Instruction) :
    (p.listingFrom index is).filterMap ListingLine.index? = List.range' index is.length := by
  have hlabels : ∀ index : Int, ((p.symbols.labelsAt index).map ListingLine.label).filterMap
      ListingLine.index? = [] := by
    intro index
    simp [ListingLine.index?]
  induction is generalizing index with
  | nil => exact hlabels index
  | cons i rest ih =>
    have hindex : (ListingLine.instruction index i).index? = some index := rfl
    rw [listingFrom, List.filterMap_append, hlabels, List.nil_append,
      List.filterMap_cons_some hindex, ih, List.length_cons, List.range'_succ]

end Listing

theorem listing_listedBy {source : Text} {p : Program} (h : load source = .ok p) :
    p.ListedBy p.listing := by
  have hordered := p.listingFrom_ordered 0 p.instructions
  constructor
  · intro index i
    rw [listing, mem_listingFrom_instruction]
    simp
  · intro name
    rw [listing, mem_listingFrom_label]
    constructor
    · rintro ⟨k, -, -, hk⟩
      exact ⟨k, hk⟩
    · rintro ⟨index, hindex⟩
      obtain ⟨hlow, hhigh⟩ := load_index?_range h hindex
      obtain ⟨k, rfl⟩ := Int.eq_ofNat_of_zero_le hlow
      refine ⟨k, Nat.zero_le k, ?_, hindex⟩
      rw [Nat.zero_add]
      exact Int.ofNat_le.mp hhigh
  · refine hordered.imp ?_
    rintro x _ hprecedes rfl
    exact not_precedes_self x hprecedes
  · exact hordered
  · rw [listing, listingFrom_indices, List.range_eq_range', size]

section Loaded
variable {source : Text} {p : Program} {lines : List ListingLine}

theorem ListedBy.label_spells (hlisted : p.ListedBy lines) (h : load source = .ok p) {name : Text}
    (hname : .label name ∈ lines) : Token.label.Spells name := by
  obtain ⟨index, hindex⟩ := (hlisted.label name).mp hname
  exact load_label_spells h (.inl (by simp [hindex]))

theorem ListedBy.isLine (hlisted : p.ListedBy lines) (h : load source = .ok p) (pc : Int) :
    ∀ x ∈ lines, (x.text pc).IsLine := by
  intro x hx
  cases x with
  | label name => exact ListingLine.label_isLine (hlisted.label_spells h hx) pc
  | instruction index i =>
    have hi := (hlisted.instruction index i).mp hx
    exact ListingLine.instruction_isLine h (List.mem_of_getElem? hi) pc index

theorem ListedBy.marked_iff (hlisted : p.ListedBy lines) (h : load source = .ok p) (pc : Int) :
    ∀ x ∈ lines, ListingLine.Marked (x.text pc) ↔
      ∃ index i, x = .instruction index i ∧ (index : Int) = pc := by
  intro x hx
  cases x with
  | label name => simp [ListingLine.label_not_marked (hlisted.label_spells h hx)]
  | instruction index i => simp [ListingLine.instruction_marked_iff]

theorem ListedBy.not_marked_iff (hlisted : p.ListedBy lines) (h : load source = .ok p) {pc : Int}
    (hlow : 0 ≤ pc) (hhigh : pc ≤ p.size) :
    (∀ x ∈ lines, ¬ ListingLine.Marked (x.text pc)) ↔ pc = p.size := by
  have hmarked := hlisted.marked_iff h pc
  have hsize : p.size = p.instructions.length := rfl
  constructor
  · intro hnone
    by_contra hne
    obtain ⟨index, rfl⟩ := Int.eq_ofNat_of_zero_le hlow
    have hlt : index < p.instructions.length := by omega
    have hmem := (hlisted.instruction index _).mpr (List.getElem?_eq_getElem hlt)
    exact hnone _ hmem ((hmarked _ hmem).mpr ⟨index, _, rfl, rfl⟩)
  · rintro hend x hx hmark
    obtain ⟨index, i, rfl, hindex⟩ := (hmarked x hx).mp hmark
    obtain ⟨hlt, -⟩ := List.getElem?_eq_some_iff.mp ((hlisted.instruction index i).mp hx)
    omega

end Loaded

end Program

namespace Session

theorem after_current {files : Files} {requests : List Request} {t : Trail}
    (ht : (after files requests).trail = some t) :
    t.current.program = t.program ∧ 0 ≤ t.current.pc ∧ t.current.pc ≤ t.program.size := by
  have hfaithful : t.Faithful (after files requests).overrides := after_faithful files requests t ht
  obtain ⟨n, hn⟩ := hfaithful.reached t.current (by simp [Trail.history])
  have hprogram : t.current.program = t.program := by
    rw [hn]
    exact (Machine.stepN_origin n _).2
  have hsound : t.current.Sound := by
    rw [hn]
    exact Machine.stepN_sound n (Machine.start_sound hfaithful.loaded _)
  exact ⟨hprogram, hsound.pc_nonneg, hprogram ▸ hsound.pc_le⟩

/-- The listing of every session with a program is complete and in order. Each
of its lines is printed as a line of its own, and the one of the program counter
has the arrow, which no line has just if the counter is at the end. -/
theorem after_list (files : Files) (requests : List Request) {t : Trail}
    (ht : (after files requests).trail = some t) {line : Text}
    (hline : Command.ofLine line = .list) :
    let s := after files requests
    let r := s.execute files line
    let pc := t.current.pc
    r.session = s ∧ r.running = true ∧ ∃ lines, t.program.ListedBy lines ∧
      r.output = lines.flatMap (ListingLine.text pc) ∧
      (Text.lines r.output).map (· ++ ['\n']) = lines.map (ListingLine.text pc) ∧
      (∀ x ∈ lines, ListingLine.Marked (x.text pc) ↔
        ∃ index i, x = .instruction index i ∧ (index : Int) = pc) ∧
      ((∀ x ∈ lines, ¬ ListingLine.Marked (x.text pc)) ↔ pc = t.program.size) := by
  intro s r pc
  have hloaded : load t.source = .ok t.program := (after_faithful files requests t ht).loaded
  obtain ⟨hprogram, hlow, hhigh⟩ := after_current ht
  have hlisted := Program.listing_listedBy hloaded
  have hr : r = { session := s, output := t.program.listing.flatMap (ListingLine.text pc) } := by
    have hs : s.trail = some t := ht
    simp only [r, pc, execute, hline, perform, look, hs, Option.elim_some, Program.listingText,
      hprogram]
  have hprinted : r.output = (t.program.listing.map (ListingLine.text pc)).flatten := by
    rw [hr, List.flatMap_def]
  refine ⟨by rw [hr], by rw [hr], t.program.listing, hlisted, by rw [hr], ?_,
    hlisted.marked_iff hloaded pc, hlisted.not_marked_iff hloaded hlow hhigh⟩
  rw [hprinted]
  exact Text.lines_flatten (List.forall_mem_map.mpr (hlisted.isLine hloaded pc))

theorem after_list_labels :
    let files : Files := fun _ => none
    let requests := [Request.source (ofString
        "start:\nmain: li $t0, 7\n LI $t1 , x2 # note\nloop: j loop\nzero:\nend:\n"),
      .line (ofString "step")]
    let line := ofString "Disasm all"
    let s := after files requests
    (Text.lines (s.execute files line).output = [ofString "main:", ofString "start:",
      ofString "   [   0] li $t0, 7                   ",
      ofString "=> [   1] LI $t1 , x2                   ; Invalid immediate value: x2",
      ofString "loop:", ofString "   [   2] j loop                      ",
      ofString "end:", ofString "zero:"]) ∧
    ∃ t, s.trail = some t ∧ t.current.pc = 1 ∧ Command.ofLine line = .list ∧
      ∃ lines, t.program.ListedBy lines ∧
        (s.execute files line).output = lines.flatMap (ListingLine.text 1) := by
  intro files requests line s
  have hline : Command.ofLine line = .list := by decide +kernel
  have hcurrent : s.trail.map (fun t => t.current.pc) = some 1 := by decide +kernel
  obtain ⟨t, ht, hpc⟩ := Option.map_eq_some_iff.mp hcurrent
  obtain ⟨-, -, lines, hlisted, houtput, -⟩ := after_list files requests ht hline
  rw [hpc] at houtput
  exact ⟨by decide +kernel, t, ht, hpc, hline, lines, hlisted, houtput⟩

end Session

end MipsStepper
