import MipsStepper.Proofs.LabelPrefix
import MipsStepper.Proofs.WrittenSource

/-!
# The place of an instruction in a source

An instruction stands on its line between blanks, with a label before it or
not, and a comment behind it or not. All that is read from the source is the
same whatever instruction stands there, but for the one instruction line.
-/

set_option autoImplicit false

namespace MipsStepper
open Text (ofString)

namespace Draft

/-- What can stand before the instruction of a line. A label that makes the
line a global declaration cannot. -/
inductive Lead : Text → Prop
  | blank {blanks : Text} (hblank : ∀ c ∈ blanks, Text.isBlank c = true) : Lead blanks
  | label {blanks label gap : Text} (hblank : ∀ c ∈ blanks, Text.isBlank c = true)
      (hlabel : Operand.isLabel label = true) (hglobal : isGlobal (labelLine label) = false)
      (hgap : ∀ c ∈ gap, Text.isBlank c = true) : Lead (blanks ++ (labelLine label ++ gap))

inductive Trail : Text → Prop
  | blank {blanks : Text} (hblank : ∀ c ∈ blanks, Text.isBlank c = true) : Trail blanks
  | comment {blanks : Text} (hblank : ∀ c ∈ blanks, Text.isBlank c = true) (comment : Text) :
      Trail (blanks ++ '#' :: comment)

section Lines
variable {label lead trail t : Text} {f : Form}

theorem Lead.hash_not_mem (h : Lead lead) : '#' ∉ lead := by
  have hblanks : ∀ {blanks : Text}, (∀ c ∈ blanks, Text.isBlank c = true) → '#' ∉ blanks :=
    fun hblank hmem => absurd (hblank _ hmem) (by decide)
  cases h with
  | blank hblank => exact hblanks hblank
  | @label blanks label gap hblank hlabel _ hgap =>
    have hname : '#' ∉ label := fun hmem =>
      absurd (Operand.isLabelChar_of_mem hlabel hmem) (by decide)
    simp [labelLine, hblanks hblank, hname, hblanks hgap]

theorem strip_append_trail (h : Trail trail) (ht : '#' ∉ t) : strip (t ++ trail) = Text.trim t := by
  cases h with
  | blank hblank =>
    have hhash : '#' ∉ t ++ trail := by
      rw [List.mem_append, not_or]
      exact ⟨ht, fun hmem => absurd (hblank _ hmem) (by decide)⟩
    rw [strip_of_not_mem hhash, Text.trim_append_blank hblank]
  | @comment blanks hblank comment =>
    have hhash : '#' ∉ t ++ blanks := by
      rw [List.mem_append, not_or]
      exact ⟨ht, fun hmem => absurd (hblank _ hmem) (by decide)⟩
    rw [← List.append_assoc, strip, Text.takeWhile_cut hhash, Text.trim_append_blank hblank]

theorem trim_labelled (hlabel : Operand.isLabel label = true) {gap : Text} (ht : t ≠ [])
    (htrim : Text.trim t = t) :
    Text.trim (labelLine label ++ (gap ++ t)) = labelLine label ++ (gap ++ t) := by
  obtain ⟨c, rest, rfl, -⟩ := (Operand.isLabel_iff label).mp hlabel
  have hlast := ((Text.trim_eq_self_iff t).mp htrim).2
  have hfirst := Operand.isLabelChar_not_blank
    (Operand.isLabelChar_of_mem hlabel List.mem_cons_self)
  obtain ⟨front, d, rfl⟩ := (List.eq_nil_or_concat' t).resolve_left ht
  rw [Text.trim_eq_self_iff]
  constructor
  · simpa [labelLine] using hfirst
  · simpa [← List.append_assoc] using hlast

theorem plain_labelled (hglobal : isGlobal (labelLine label) = false) (tail : Text) :
    Plain (labelLine label ++ tail) :=
  plain_of_colon (by simp [labelLine]) ((isGlobal_labelLine_append label tail).trans hglobal)

theorem Lead.read (h : Lead lead) : ∃ enter : Draft → Draft,
    (∀ d, (enter d).segment = d.segment) ∧
    ∀ {f : Form} {t trail : Text}, f.Written t → '#' ∉ t → Trail trail →
      ∀ d : Draft, d.read (lead ++ t ++ trail) = (enter d).place t := by
  have hstrip : ∀ {f : Form} {t trail : Text}, f.Written t → '#' ∉ t → Trail trail →
      strip (lead ++ t ++ trail) = Text.trim (lead ++ t) := by
    intro f t trail _ hhash htrail
    refine strip_append_trail htrail ?_
    rw [List.mem_append, not_or]
    exact ⟨h.hash_not_mem, hhash⟩
  cases h with
  | blank hblank =>
    refine ⟨id, fun _ => rfl, fun {f t trail} hf hhash htrail d => ?_⟩
    have hline : strip (lead ++ t ++ trail) = t := by
      rw [hstrip hf hhash htrail, Text.trim_blank_append hblank, hf.trim_eq]
    rw [read_plain d (hline.symm ▸ hf.plain), hline, content_unlabelled hf.unlabelled]
    rfl
  | @label blanks label gap hblank hlabel hglobal hgap =>
    refine ⟨fun d => d.define label, fun d => define_segment d label,
      fun {f t trail} hf hhash htrail d => ?_⟩
    have hline : strip (blanks ++ (labelLine label ++ gap) ++ t ++ trail) =
        labelLine label ++ (gap ++ t) := by
      rw [hstrip hf hhash htrail, List.append_assoc, Text.trim_blank_append hblank,
        List.append_assoc, trim_labelled hlabel hf.plain.1 hf.trim_eq]
    have hlabelled : labelled? (labelLine label ++ (gap ++ t)) = some (label, t) := by
      rw [labelLine, List.append_assoc, List.singleton_append,
        labelled?_append hlabel, Text.trim_blank_append hgap, hf.trim_eq]
    rw [read_plain d (hline.symm ▸ plain_labelled hglobal _), hline,
      content_labelled hlabelled hf.plain.1]

theorem exists_lead_trail {raw : Text} (h : Plain (strip raw)) :
    ∃ lead trail, Lead lead ∧ Trail trail ∧ raw = lead ++ body (strip raw) ++ trail := by
  have hraw : raw.takeWhile (· ≠ '#') ++ raw.dropWhile (· ≠ '#') = raw :=
    List.takeWhile_append_dropWhile
  have htrail : ∀ {blanks : Text}, (∀ c ∈ blanks, Text.isBlank c = true) →
      Trail (blanks ++ raw.dropWhile (· ≠ '#')) := by
    intro blanks hblank
    have hhead := List.head?_dropWhile_not (fun c => decide (c ≠ '#')) raw
    cases hrest : raw.dropWhile (· ≠ '#') with
    | nil =>
      rw [List.append_nil]
      exact .blank hblank
    | cons c comment =>
      rw [hrest] at hhead
      obtain rfl : c = '#' := by simpa using hhead
      exact .comment hblank comment
  obtain ⟨left, right, hleft, hright, hpad⟩ := Text.exists_pad (raw.takeWhile (· ≠ '#'))
  cases hlabel : labelled? (strip raw) with
  | none =>
    have hbody : body (strip raw) = strip raw := by rw [body, hlabel]
    refine ⟨left, _, .blank hleft, htrail hright, ?_⟩
    rw [hbody, strip]
    conv_lhs => rw [← hraw, ← hpad]
    simp only [List.append_assoc]
  | some labelled =>
    obtain ⟨label, rest⟩ := labelled
    obtain ⟨tail, hline, rfl, hname, -⟩ := labelled?_eq_some hlabel
    obtain ⟨gap, after, hgap, hafter, htail⟩ := Text.exists_pad tail
    have hglobal : isGlobal (labelLine label) = false := isGlobal_labelLine hlabel h.2.2.2
    have hblank : ∀ c ∈ after ++ right, Text.isBlank c = true := by
      intro c hc
      exact (List.mem_append.mp hc).elim (hafter c) (hright c)
    refine ⟨_, _, .label hleft hname hglobal hgap, htrail hblank, ?_⟩
    have hstrip : Text.trim (raw.takeWhile (· ≠ '#')) = label ++ ':' :: tail := hline
    rw [body_labelled hlabel]
    conv_lhs => rw [← hraw, ← hpad, hstrip, ← htail]
    simp [labelLine]

end Lines

section Reading
variable {d : Draft} {f g : Draft → Draft}

def withLines (d : Draft) (lines : List Text) : Draft := { d with lines := lines }

/-- What is done to a draft adds instruction lines at most, whichever lines
there are before, as long as there are as many. -/
def Appends (f : Draft → Draft) (d : Draft) : Prop :=
  ∃ added, ∀ lines : List Text, lines.length = d.lines.length →
    f (d.withLines lines) = (f d).withLines (lines ++ added)

theorem Appends.comp (hf : Appends f d) (hg : Appends g (f d)) : Appends (g ∘ f) d := by
  obtain ⟨added, hadded⟩ := hf
  obtain ⟨more, hmore⟩ := hg
  have hlines : (f d).lines = d.lines ++ added := congrArg lines (hadded d.lines rfl)
  refine ⟨added ++ more, fun lines hlength => ?_⟩
  rw [Function.comp_apply, hadded lines hlength, hmore _ (by simp [hlines, hlength]),
    List.append_assoc]
  rfl

theorem define_appends (label : Text) (d : Draft) : Appends (fun d => d.define label) d := by
  refine ⟨[], fun lines hlength => ?_⟩
  rw [List.append_nil]
  obtain ⟨segment, before, symbols, strings, cursor⟩ := d
  cases segment with
  | text =>
    simp only at hlength
    simp only [define, withLines, hlength]
  | data => rfl

theorem place_appends (line : Text) (d : Draft) : Appends (fun d => d.place line) d := by
  obtain ⟨segment, before, symbols, strings, cursor⟩ := d
  cases segment with
  | text => exact ⟨[line], fun lines _ => rfl⟩
  | data =>
    refine ⟨[], fun lines _ => ?_⟩
    rw [List.append_nil]
    simp only [place, withLines]
    cases Directive.ofText? line with
    | none => rfl
    | some directive => cases directive <;> rfl

theorem content_appends (line : Text) (d : Draft) : Appends (fun d => d.content line) d := by
  unfold content
  cases labelled? line with
  | none => exact place_appends line d
  | some labelled =>
    obtain ⟨label, rest⟩ := labelled
    cases rest with
    | nil => exact define_appends label d
    | cons c rest => exact (define_appends label d).comp (place_appends _ _)

theorem read_appends (raw : Text) (d : Draft) : Appends (fun d => d.read raw) d := by
  by_cases hplain : Plain (strip raw)
  · simp only [read_plain _ hplain]
    exact content_appends _ d
  · simp only [read_not_plain _ hplain]
    refine ⟨[], fun lines _ => ?_⟩
    rw [List.append_nil]
    rfl

theorem foldl_read_appends (raws : List Text) (d : Draft) :
    Appends (fun d => raws.foldl Draft.read d) d := by
  induction raws generalizing d with
  | nil =>
    refine ⟨[], fun lines _ => ?_⟩
    rw [List.append_nil]
    rfl
  | cons raw raws ih => exact (read_appends raw d).comp (ih _)

/-- The draft of a source with a place for an instruction, as what it is for
the instruction that stands there. -/
theorem ofLines_place {before : List Text} (hseg : before.foldl segmentAfter .text = .text)
    {lead : Text} (hlead : Lead lead) (after : List Text) :
    ∃ (d : Draft) (front back : List Text), ∀ {f : Form} {t trail : Text}, f.Written t →
      '#' ∉ t → Trail trail →
        ofLines (before ++ (lead ++ t ++ trail) :: after) = d.withLines (front ++ t :: back) := by
  obtain ⟨enter, hsegment, hread⟩ := hlead.read
  have hd : (enter (ofLines before)).segment = .text :=
    (hsegment _).trans ((ofLines_segment before).trans hseg)
  generalize hentered : enter (ofLines before) = entered at hd
  -- Any line will do in the place of the instruction.
  obtain ⟨back, hback⟩ := foldl_read_appends after (entered.withLines (entered.lines ++ [[]]))
  dsimp only at hback
  refine ⟨after.foldl read (entered.withLines (entered.lines ++ [[]])), entered.lines, back,
    fun {f t trail} hf hhash htrail => ?_⟩
  have hplace : entered.place t = (entered.withLines (entered.lines ++ [[]])).withLines
      (entered.lines ++ [t]) := by
    simp only [place, hd, withLines]
  rw [ofLines_append, List.foldl_cons, hread hf hhash htrail, hentered, hplace,
    hback _ (by simp [withLines]), List.append_assoc]
  rfl

end Reading

end Draft

end MipsStepper
