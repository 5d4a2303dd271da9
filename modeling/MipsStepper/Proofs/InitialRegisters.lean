import Mathlib.Data.List.Induction
import Mathlib.Tactic.Push
import MipsStepper.Proofs.Reachable
import MipsStepper.Proofs.SessionHistory

/-!
# The initial registers of a session

Overrides of registers are kept under the full names of the registers, one for
each, so a new override replaces the one before it however it was named. They
outlive loads and resets and belong to the session, and the first snapshot
always shows the last of them. One that is refused changes nothing.
-/

set_option autoImplicit false

namespace MipsStepper
open Text (ofString)

theorem Register.named?_eq_some_iff {t : Text} {r : Register} : named? t = some r ↔ t = r.name :=
  ⟨fun h => (name_of_named? h).symm, fun h => h ▸ named?_name r⟩

theorem Register.name_injective {d r : Register} (h : d.name = r.name) : d = r :=
  Option.some.inj ((named?_name d).symm.trans (named?_eq_some_iff.mpr h))

namespace Overrides
variable {r : Register}

theorem write_named_get (f : RegisterFile) (key : Text) (v : Word) (hr : r ≠ Register.zero) :
    (f.write (Register.named? key) v).cells.get r = if key = r.name then v else f.cells.get r := by
  have hkey := @Register.named?_eq_some_iff key r
  cases hd : Register.named? key with
  | none =>
    rw [hd] at hkey
    simp [RegisterFile.write, ← hkey]
  | some d =>
    rw [hd, Option.some.injEq] at hkey
    by_cases hzero : d = Register.zero
    · simp [RegisterFile.write, hzero, ← hkey, hr.symm]
    · simp [RegisterFile.write, hzero, ← hkey, RegisterFile.get_set]

theorem foldl_write_get (entries : List (Text × Word)) (f : RegisterFile) (hr : r ≠ Register.zero) :
    (entries.foldl (fun f e => f.write (Register.named? e.1) e.2) f).cells.get r =
      ((entries.filter fun e => e.1 = r.name).getLast?.map Prod.snd).getD (f.cells.get r) := by
  induction entries using List.reverseRecOn with
  | nil => simp
  | append_singleton entries e ih =>
    rw [List.foldl_append, List.foldl_cons, List.foldl_nil, write_named_get _ _ _ hr, ih]
    by_cases h : e.1 = r.name <;> simp [List.filter_append, h]

theorem getLast?_entriesFor (m : Std.ExtTreeMap Text Word compare) (key : Text) :
    (m.toList.filter fun e => e.1 = key).getLast?.map Prod.snd = m[key]? := by
  have hmem : ∀ e, e ∈ (m.toList.filter fun e => e.1 = key) → m[key]? = some e.2 := by
    rintro ⟨k, v⟩ he
    obtain ⟨hentry, hk⟩ := List.mem_filter.mp he
    rw [decide_eq_true_eq] at hk
    subst hk
    exact Std.ExtTreeMap.mem_toList_iff_getElem?_eq_some.mp hentry
  cases hlast : (m.toList.filter fun e => e.1 = key).getLast? with
  | some e => exact (hmem e (List.mem_of_getLast? hlast)).symm
  | none =>
    rw [List.getLast?_eq_none_iff, List.filter_eq_nil_iff] at hlast
    cases hkey : m[key]? with
    | none => rfl
    | some v =>
      have hentry := Std.ExtTreeMap.mem_toList_iff_getElem?_eq_some.mpr hkey
      exact absurd (decide_eq_true rfl) (hlast (key, v) hentry)

theorem registerFile_get (o : Overrides) (hr : r ≠ Register.zero) :
    o.registerFile.cells.get r = (o.registers[r.name]?).getD 0 := by
  have hcleared : RegisterFile.zeroed.cells.get r = 0 := by
    simp [RegisterFile.zeroed, Vector.get]
  rw [registerFile, foldl_write_get _ _ hr, getLast?_entriesFor, hcleared]

end Overrides

theorem Command.ofVerb_eq_setRegister {args : List Text} {v : Verb} {name value : Text}
    (h : ofVerb args v = .setRegister name value) :
    v = .set ∧ ∃ rest, args = name :: value :: rest := by
  cases v with
  | set =>
    rcases args with _ | ⟨_, _ | ⟨_, rest⟩⟩
    · cases h
    · cases h
    · cases h
      exact ⟨rfl, rest, rfl⟩
  | setmem => rcases args with _ | ⟨_, _ | ⟨_, _⟩⟩ <;> cases h
  | load => cases args <;> cases h
  | reg => cases args <;> cases h
  | mem => cases args <;> cases h
  | _ => cases h

namespace Session

def Names (word : Text) (r : Register) : Prop := word = r.name ∨ '$' :: word = r.name

/-- A command line that is to set a register, with the words that it gives.
Further words are ignored. -/
def SetLine (line name value : Text) : Prop :=
  ∃ verb rest, Text.words line = verb :: name :: value :: rest ∧ Text.lower verb = ofString "set"

inductive Request.Sets : Request → Register → Word → Prop
  | line {line name value : Text} {r : Register} {v : Word} (hline : SetLine line name value)
      (hname : Names name r) (hr : r ≠ Register.zero) (hv : Literal.read? value = some v) :
      Sets (.line line) r v

def LastSetting (requests : List Request) (r : Register) (v : Word) : Prop :=
  ∃ before q after, requests = before ++ q :: after ∧ q.Sets r v ∧
    ∀ q' ∈ after, ∀ w, ¬ q'.Sets r w

section Lines
variable {line name value word : Text} {r : Register}

theorem named?_fullName : Register.named? (fullName word) = some r ↔ Names word r := by
  rw [Register.named?_eq_some_iff, Names]
  have hall : ∀ d : Register, d.name.head? = some '$' ∧ d.name.tail.head? ≠ some '$' ∧
      d.name.tail ≠ [] := by decide +kernel
  obtain ⟨hfirst, hsecond, hne⟩ := hall r
  obtain ⟨rest, hrest⟩ := List.head?_eq_some_iff.mp hfirst
  rw [hrest, List.tail_cons] at hsecond hne
  rw [hrest]
  cases word with
  | nil => simp [fullName, hne.symm]
  | cons c t =>
    by_cases hc : c = '$'
    · subst hc
      have hother : '$' :: t ≠ rest := by
        rintro rfl
        exact hsecond rfl
      simp [fullName, hother]
    · simp [fullName, hc]

theorem ofLine_eq_setRegister_iff :
    Command.ofLine line = .setRegister name value ↔ SetLine line name value := by
  constructor
  · intro h
    unfold Command.ofLine at h
    split at h
    · cases h
    · rename_i verb args hwords
      split at h
      · rename_i v hv
        obtain ⟨rfl, rest, rfl⟩ := Command.ofVerb_eq_setRegister h
        have hnames := List.find?_some hv
        exact ⟨verb, rest, hwords, by simpa [Verb.names] using hnames⟩
      · cases h
  · rintro ⟨verb, rest, hwords, hverb⟩
    have hset : Verb.named? (ofString "set") = some .set := by decide +kernel
    simp [Command.ofLine, hwords, hverb, hset, Command.ofVerb]

end Lines

section Answers
variable {files : Files} {s : Session} {name value : Text} {r : Register} {v : Word} {q : Request}

theorem override_overrides (s : Session) (o : Overrides) (told : Text) :
    (s.override o told).session.overrides = o := by
  unfold override
  cases s.trail with
  | none => rfl
  | some t => simp only [reset, move_session]

theorem setRegister_registers (hname : Names name r) (hr : r ≠ Register.zero)
    (hv : Literal.read? value = some v) :
    (s.setRegister name value).session.overrides.registers =
      s.overrides.registers.insert r.name v := by
  have hnamed := named?_fullName.mpr hname
  have hfilter : (some r).filter (· ≠ Register.zero) = some r := by simp [Option.filter, hr]
  simp only [setRegister, hnamed, hfilter, hv, override_overrides]

theorem setRegister_refused
    (h : (∀ r, Names name r → r = Register.zero) ∨ Literal.read? value = none) :
    (s.setRegister name value).session = s := by
  unfold setRegister
  split
  · rfl
  · rename_i d hd
    obtain ⟨hnamed, hne⟩ := Option.filter_eq_some_iff.mp hd
    rcases h with h | h
    · exact absurd (h d (named?_fullName.mp hnamed)) (of_decide_eq_true hne)
    · rw [h]
      rfl

theorem perform_registers (files : Files) (s : Session) {c : Command}
    (h : ∀ name value, c ≠ .setRegister name value) :
    (s.perform files c).session.overrides.registers = s.overrides.registers := by
  cases c with
  | load file =>
    rw [perform, loadFile]
    split <;> rfl
  | run => simp only [perform, move_session]
  | step n => simp only [perform, move_session]
  | back n => simp only [perform, move_session]
  | reset => simp only [perform, reset, move_session]
  | setRegister name value => exact absurd rfl (h name value)
  | setMemory address value =>
    rw [perform, setMemory]
    split
    · rfl
    · split
      · rfl
      · rw [override_overrides]
  | _ => rfl

theorem answer_sets (h : q.Sets r v) :
    (s.answer files q).overrides.registers[r.name]? = some v := by
  cases h with
  | line hline hname hr hv =>
    have hcommand := ofLine_eq_setRegister_iff.mpr hline
    rw [answer, execute, hcommand, perform, setRegister_registers hname hr hv]
    simp

theorem answer_other (h : ∀ v, ¬ q.Sets r v) :
    (s.answer files q).overrides.registers[r.name]? = s.overrides.registers[r.name]? := by
  cases q with
  | source text =>
    rw [answer, loadSource]
    cases load text <;> rfl
  | line text =>
    by_cases hset : ∃ name value, Command.ofLine text = .setRegister name value
    · obtain ⟨name, value, hset⟩ := hset
      have hline := ofLine_eq_setRegister_iff.mp hset
      rw [answer, execute, hset, perform]
      by_cases hrefused : (∀ d, Names name d → d = Register.zero) ∨ Literal.read? value = none
      · rw [setRegister_refused hrefused]
      · push Not at hrefused
        obtain ⟨⟨d, hname, hd⟩, hvalue⟩ := hrefused
        obtain ⟨v, hv⟩ := Option.ne_none_iff_exists'.mp hvalue
        have hother : d.name ≠ r.name := by
          intro heq
          obtain rfl := Register.name_injective heq
          exact h v (.line hline hname hd hv)
        rw [setRegister_registers hname hd hv]
        simp [Std.ExtTreeMap.getElem?_insert, hother]
    · push Not at hset
      rw [answer, execute, perform_registers files s hset]

theorem after_override (files : Files) (requests : List Request) (r : Register) :
    (∃ v, (after files requests).overrides.registers[r.name]? = some v ∧
      LastSetting requests r v) ∨
    (after files requests).overrides.registers[r.name]? = none ∧
      ∀ q ∈ requests, ∀ v, ¬ q.Sets r v := by
  induction requests using List.reverseRecOn with
  | nil => exact .inr ⟨by simp [after], by simp⟩
  | append_singleton requests q ih =>
    have hafter : after files (requests ++ [q]) = (after files requests).answer files q := by
      simp [after]
    rw [hafter]
    by_cases hsets : ∃ v, q.Sets r v
    · obtain ⟨v, hv⟩ := hsets
      exact .inl ⟨v, answer_sets hv, requests, q, [], rfl, hv, by simp⟩
    · push Not at hsets
      rw [answer_other hsets]
      have hlast : ∀ p ∈ [q], ∀ v, ¬ p.Sets r v := by simpa using hsets
      rcases ih with ⟨v, hv, before, q', later, rfl, hq', hlater⟩ | ⟨hnone, hall⟩
      · exact .inl ⟨v, hv, before, q', later ++ [q], by simp, hq',
          List.forall_mem_append.mpr ⟨hlater, hlast⟩⟩
      · exact .inr ⟨hnone, List.forall_mem_append.mpr ⟨hall, hlast⟩⟩

end Answers

/-- The registers at the start of a session that has a program. Each but `$zero`
holds what it was last set to, by whatever name and before or after whatever
else was asked, and zero if it was never set. `$zero` holds zero. An override
that names no other register, or has no value, leaves the session as it was. -/
theorem after_registers (files : Files) (requests : List Request) :
    let s := after files requests
    (s.isLoaded → ∃ first, s.history[0]? = some first ∧
      first.registers.cells.get Register.zero = 0 ∧
      ∀ r, r ≠ Register.zero →
        LastSetting requests r (first.registers.cells.get r) ∨
        (∀ q ∈ requests, ∀ v, ¬ q.Sets r v) ∧ first.registers.cells.get r = 0) ∧
    ∀ line name value, SetLine line name value →
      (∀ r, Names name r → r = Register.zero) ∨ Literal.read? value = none →
      s.answer files (.line line) = s := by
  intro s
  refine ⟨fun hloaded => ?_, fun line name value hline hrefused => ?_⟩
  · obtain ⟨t, ht⟩ := Option.isSome_iff_exists.mp hloaded
    have hfirst : s.history[0]? = some (Machine.start t.program t.source s.overrides) := by
      have h := (after_faithful files requests t ht).first
      simpa [s, history, ht, List.head?_eq_getElem?] using h
    refine ⟨_, hfirst, s.overrides.registerFile_zero, fun r hr => ?_⟩
    have hget : (Machine.start t.program t.source s.overrides).registers.cells.get r =
        (s.overrides.registers[r.name]?).getD 0 := s.overrides.registerFile_get hr
    rw [hget]
    rcases after_override files requests r with ⟨v, hv, hlast⟩ | ⟨hnone, hall⟩
    · rw [hv]
      exact .inl hlast
    · rw [hnone]
      exact .inr ⟨hall, rfl⟩
  · rw [answer, execute, ofLine_eq_setRegister_iff.mpr hline]
    exact setRegister_refused hrefused

/-- `$t0` is set before the first load and again between two steps, and keeps
the second value over refused settings, a reset, a failed and a second load. -/
theorem after_registers_set_twice :
    let files : Files := fun _ => none
    let requests := [Request.line (ofString "set t0 5"), .source (ofString "li $t0, 1\nli $t1, 2"),
      .line (ofString "step"), .line (ofString "SET  $t0 0x10 more"), .line (ofString "step"),
      .line (ofString "set zero 1"), .line (ofString "set t7 x1"), .line (ofString "set $$t0 7"),
      .line (ofString "reset"), .source [], .source (ofString "li $t0, 3"), .line (ofString "run")]
    let s := after files requests
    s.isLoaded ∧
      (∃ first, s.history[0]? = some first ∧ first.registers.cells.get (8 : Register) = 16 ∧
        first.registers.cells.get Register.zero = 0 ∧ LastSetting requests (8 : Register) 16) ∧
      SetLine (ofString "set t7 x1") (ofString "t7") (ofString "x1") ∧
      Literal.read? (ofString "x1") = none ∧ s.answer files (.line (ofString "set t7 x1")) = s := by
  intro files requests s
  have hloaded : s.isLoaded := by decide +kernel
  have hcell : (s.history[0]?.map fun m => m.registers.cells.get (8 : Register)) = some 16 := by
    decide +kernel
  have hline : SetLine (ofString "set t7 x1") (ofString "t7") (ofString "x1") :=
    ⟨ofString "set", [], by decide +kernel, by decide +kernel⟩
  have hvalue : Literal.read? (ofString "x1") = none := by decide +kernel
  obtain ⟨hfirst, hrefused⟩ := after_registers files requests
  obtain ⟨first, hhistory, hzero, hcells⟩ := hfirst hloaded
  rw [hhistory, Option.map_some, Option.some.injEq] at hcell
  have hlast : LastSetting requests (8 : Register) 16 := by
    rcases hcells (8 : Register) (by decide) with h | h
    · exact hcell ▸ h
    · exact absurd (hcell.symm.trans h.2) (by decide)
  exact ⟨hloaded, ⟨first, hhistory, hcell, hzero, hlast⟩, hline, hvalue,
    hrefused _ _ _ hline (.inr hvalue)⟩

end Session

end MipsStepper
