import PositionalRecord.Proofs.Equivalence

/-!
# Equal values look alike

What a value shows is made of the same two things by which it is compared, its form and what its
members show, so equal values have one label and one text, by induction on what they store. How
records keep their fields plays no part, and a sealed member is equal to copies of itself only. One
pair of scalars stands in the way: the two zeros are equal numbers, but one of them is written with
a sign. Values in which no zero can be seen are free of it.
-/

namespace PositionalRecord

namespace Value

/-! ## What can be seen -/

/-- The part can be seen in the whole: it is the whole, or can be seen in one of its members, and
nothing on the way is hidden. -/
inductive Visible (part : Value) : Value → Prop
  | whole (hpart : part.isHidden = false) : Visible part part
  | member {whole member : Value} (hwhole : whole.isHidden = false)
      (hmember : member ∈ whole.content.members) (h : Visible part member) : Visible part whole

/-- No zero of either sign can be seen in the value. -/
def ShowsNoZero (value : Value) : Prop :=
  ∀ part x, Visible part value → part.content = .scalar (.float x) → x.isZero = false

/-- A hidden value shows no zero; any other value shows none if it is none itself and its members
show none. -/
theorem showsNoZero_iff {value : Value} :
    value.ShowsNoZero ↔
      (value.isHidden = false →
        (∀ x, value.content = .scalar (.float x) → x.isZero = false) ∧
          ∀ member ∈ value.content.members, member.ShowsNoZero) := by
  constructor
  · intro h hvalue
    exact ⟨fun x ↦ h value x (.whole hvalue),
      fun member hmember part x hpart ↦ h part x (.member hvalue hmember hpart)⟩
  · intro h part x hpart
    cases hpart with
    | whole hvalue => exact (h hvalue).1 x
    | member hvalue hmember hpart => exact (h hvalue).2 _ hmember part x hpart

/-- Zeros have to be left out: the two of them are equal and have different texts. -/
theorem zeros_equal_shown_apart (cell other : Nat) (layout : Layout) :
    (number cell (.ofMagnitude false 0)).equal (number other (.ofMagnitude true 0)) ∧
      (number cell (.ofMagnitude false 0)).text layout = "0.0" ∧
      (number other (.ofMagnitude true 0)).text layout = "-0.0" := by
  obtain ⟨isIndented, isUnprintable⟩ := layout
  refine ⟨equal_iff.mpr (.inr ⟨rfl, rfl, .scalar (by decide), .nil⟩), ?_, ?_⟩
  · rw [text, doc_eq]
    cases isIndented <;> rfl
  · rw [text, doc_eq]
    cases isIndented <;> rfl

end Value

/-! ## Equal values -/

theorem map_eq_of_forall₂ {α β : Type} {f : α → β} {fields others : List α}
    (h : List.Forall₂ (f · = f ·) fields others) : fields.map f = others.map f := by
  rw [← List.forall₂_eq_eq_eq, List.forall₂_map_left_iff, List.forall₂_map_right_iff]
  exact h

namespace Issued

variable {next : Nat} {values : List Value}

theorem label_eq_of_equal (h : Issued next values) {v w : Value} (hv : v ∈ values)
    (hw : w ∈ values) (hequal : v.equal w) : v.label = w.label := by
  rcases (h.equal_iff hv hw).mp hequal with rfl | hcompared
  · rfl
  · exact congrArg Kind.label hcompared.sameForm.kind_eq

theorem doc_eq_of_equal (h : Issued next values) {v w : Value} (hv : v ∈ values)
    (hw : w ∈ values) (hzero : v.ShowsNoZero) (hequal : v.equal w) : v.doc = w.doc := by
  induction v using Value.rec_stored generalizing w with
  | step v ih =>
    rcases (h.equal_iff hv hw).mp hequal with rfl | hcompared
    · rfl
    · obtain ⟨hscalarZero, hmemberZero⟩ :=
        Value.showsNoZero_iff.mp hzero hcompared.left_shown
      have hmembers : v.content.members.map Value.doc = w.content.members.map Value.doc := by
        refine map_eq_of_forall₂ (forall₂_imp_of_mem ?_ hcompared.members)
        intro x hx y hy
        exact ih x (v.content.members_subset_stored hx) (h.members_subset hv hx)
          (h.members_subset hw hy) (hmemberZero x hx)
      have hscalar (s t : Scalar) (hs : v.content = .scalar s) (ht : w.content = .scalar t) :
          s.doc = t.doc := by
        have hform := hcompared.sameForm
        rw [hs, ht] at hform
        cases hform with
        | scalar hst =>
          have hsame : s = t := Scalar.eq_of_equal hst fun x hx ↦
            hscalarZero x (hs.trans (congrArg Content.scalar hx))
          rw [hsame]
      rw [v.doc_eq, w.doc_eq, hcompared.left_shown, hcompared.right_shown]
      exact hcompared.sameForm.doc_eq hscalar hmembers

/-- Equal lists of values show the same, one by one. -/
theorem map_doc_eq (h : Issued next values) {fields others : List Value}
    (hfields : fields ⊆ values) (hothers : others ⊆ values)
    (hzero : ∀ value ∈ fields, value.ShowsNoZero)
    (hequal : Content.relateEach Value.equal fields others) :
    fields.map Value.doc = others.map Value.doc := by
  refine map_eq_of_forall₂ (forall₂_imp_of_mem ?_ (relateEach_iff.mp hequal))
  intro v hv w hw
  exact h.doc_eq_of_equal (hfields hv) (hothers hw) (hzero v hv)

/-- Among the values that a supply has issued, those that are equal look alike, if no zero can be
seen in them: they have one label, and one text in every layout. The same goes for rows and for
records of such values, whatever is pending on the records. -/
theorem equal_shown_alike (h : Issued next values) :
    (∀ v ∈ values, ∀ w ∈ values, v.ShowsNoZero → v.equal w →
      v.label = w.label ∧ ∀ layout, v.text layout = w.text layout) ∧
    (∀ row other : Row Value, row.toList ⊆ values → other.toList ⊆ values →
      (∀ value ∈ row.toList, value.ShowsNoZero) →
      (Content.row row).relate Value.equal (.row other) →
        ∀ layout, (Content.row row).text layout = (Content.row other).text layout) ∧
    (∀ record other : Record Value, record.toList ⊆ values → other.toList ⊆ values →
      (∀ value ∈ record.toList, value.ShowsNoZero) →
      (Content.record record).relate Value.equal (.record other) →
        ∀ layout, (Content.record record).text layout = (Content.record other).text layout) := by
  -- Rows and records both show the list of their fields.
  have hlists {fields others : List Value} (hfields : fields ⊆ values) (hothers : others ⊆ values)
      (hzero : ∀ value ∈ fields, value.ShowsNoZero)
      (hequal : Content.relateEach Value.equal fields others) (layout : Layout) :
      (Doc.list (fields.map Value.doc)).render layout =
        (Doc.list (others.map Value.doc)).render layout := by
    rw [h.map_doc_eq hfields hothers hzero hequal]
  refine ⟨?_, ?_, ?_⟩
  · intro v hv w hw hzero hequal
    refine ⟨h.label_eq_of_equal hv hw hequal, fun layout ↦ ?_⟩
    rw [Value.text, h.doc_eq_of_equal hv hw hzero hequal, Value.text]
  · exact fun row other hrow hother ↦ hlists hrow hother
  · exact fun record other hrecord hother ↦ hlists hrecord hother

/-- Two records with the fields one, not-a-number and a sealed zero. The first holds another zero,
which can be seen no more, since it is overwritten, and its first field is prepended. -/
theorem equal_shown_alike_zero_overwritten :
    let token : Value := ⟨0, true, .scalar (.float (.ofMagnitude false 0))⟩
    let nan : Value := .number 1 .notANumber
    let zero : Value := .number 2 (.ofMagnitude true 0)
    let one : Value := .number 3 ⟨0x3FF0000000000000⟩
    let other : Value := .number 4 ⟨0x3FF0000000000000⟩
    let first : Value := ⟨5, false, .record ⟨.ofList [zero, token], ⟨⟨[(0, nan)]⟩, #[one]⟩⟩⟩
    let second : Value := ⟨6, false, .record (.ofList [other, nan, token])⟩
    let layout : Layout := ⟨false, fun _ ↦ false⟩
    Issued 7 [second, first, other, one, zero, nan, token] ∧ first.ShowsNoZero ∧
      first.equal second ∧ first.label = second.label ∧ first.text layout = second.text layout ∧
      second.text layout = "[1.0, NaN, <opaque f64>]" := by
  intro token nan zero one other first second layout
  have hscalars : Issued 5 [other, one, zero, nan, token] :=
    ((((start.scalar _ _).scalar _ _).scalar _ _).scalar _ _).scalar _ _
  have hfirst : first.content.stored ⊆ [other, one, zero, nan, token] := by
    change [zero, token, nan, one] ⊆ _
    simp
  have hsecond : second.content.stored ⊆ [first, other, one, zero, nan, token] := by
    change [other, nan, token] ⊆ _
    simp
  have h : Issued 7 [second, first, other, one, zero, nan, token] :=
    .place (.place hscalars hfirst rfl) hsecond rfl
  have hzero : first.ShowsNoZero := by
    have hnumber (cell : Nat) (x : Binary64) (hx : x.isZero = false) :
        (Value.number cell x).ShowsNoZero :=
      Value.showsNoZero_iff.mpr fun _ ↦ ⟨fun y hy ↦ by cases hy; exact hx, nofun⟩
    refine Value.showsNoZero_iff.mpr fun _ ↦ ⟨nofun, ?_⟩
    change ∀ member ∈ [one, nan, token], member.ShowsNoZero
    simp only [List.forall_mem_cons]
    exact ⟨hnumber 3 _ (by decide), hnumber 1 _ (by decide), Value.showsNoZero_iff.mpr nofun, nofun⟩
  have hequal : first.equal second := by decide +kernel
  obtain ⟨hlabel, htext⟩ := h.equal_shown_alike.1 first (by simp) second (by simp) hzero hequal
  exact ⟨h, hzero, hequal, hlabel, htext layout, by decide +kernel⟩

end Issued

end PositionalRecord
