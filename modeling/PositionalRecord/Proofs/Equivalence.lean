import Mathlib.Logic.Relation
import PositionalRecord.Value.Supply
import PositionalRecord.Proofs.Contents

/-!
# Equality of values is an equivalence

Equality takes a short way for copies and compares forms and members otherwise. The two ways fit
together because a cell is used once: among the values of one supply, copies are one value, with
one content and one seal. A step from copy to copy then changes nothing, and steps of comparison
compose member by member, by induction on what the first value stores. No member has to equal
itself by comparison: a number that is none, or a sealed value, still equals its copies.
-/

namespace PositionalRecord

/-! ## Values of one supply -/

/-- The values that a supply has put into cells so far, the last one first, when `next` is its
next unused cell. Whatever a new value stores was there before. -/
inductive Issued : Nat → List Value → Prop
  | start : Issued 0 []
  | place {next later : Nat} {values : List Value} {isSealed : Bool} {content : Content Value}
      {value : Value} (h : Issued next values) (hstored : content.stored ⊆ values)
      (hplace : (Supply.place isSealed content).run next = (value, later)) :
      Issued later (value :: values)

namespace Issued

variable {next : Nat} {values : List Value}

/-- A scalar can be put into the next cell at any time. -/
theorem scalar (h : Issued next values) (isSealed : Bool) (s : Scalar) :
    Issued (next + 1) (⟨next, isSealed, .scalar s⟩ :: values) := by
  have hstored : (Content.scalar s : Content Value).stored ⊆ values := List.nil_subset values
  exact .place h hstored rfl

theorem cell_lt (h : Issued next values) {value : Value} (hvalue : value ∈ values) :
    value.cell < next := by
  induction h with
  | start => cases hvalue
  | @place next _ _ _ _ _ _ _ hplace ih =>
    cases hplace
    rcases List.mem_cons.mp hvalue with rfl | hold
    · exact Nat.lt_succ_self next
    · exact Nat.lt_succ_of_lt (ih hold)

theorem stored_subset (h : Issued next values) {value : Value} (hvalue : value ∈ values) :
    value.content.stored ⊆ values := by
  induction h with
  | start => cases hvalue
  | place _ hstored hplace ih =>
    cases hplace
    apply List.subset_cons_of_subset
    rcases List.mem_cons.mp hvalue with rfl | hold
    · exact hstored
    · exact ih hold

theorem members_subset (h : Issued next values) {value : Value} (hvalue : value ∈ values) :
    value.content.members ⊆ values :=
  List.Subset.trans value.content.members_subset_stored (h.stored_subset hvalue)

/-- Copies are one value, with one content and one seal: no cell is used twice. -/
theorem eq_of_identical (h : Issued next values) {v w : Value} (hv : v ∈ values) (hw : w ∈ values)
    (hsame : v.identical w) : v = w := by
  have hcell : v.cell = w.cell := beq_iff_eq.mp hsame
  clear hsame
  induction h with
  | start => cases hv
  | place hbefore _ hplace ih =>
    cases hplace
    rcases List.mem_cons.mp hv with rfl | hv <;> rcases List.mem_cons.mp hw with rfl | hw
    · rfl
    · exact absurd hcell.symm (Nat.ne_of_lt (hbefore.cell_lt hw))
    · exact absurd hcell (Nat.ne_of_lt (hbefore.cell_lt hv))
    · exact ih hv hw

end Issued

/-! ## Related lists -/

section Related

variable {α : Type} {R S : α → α → Prop} {first second third : List α}

theorem forall₂_imp_of_mem (himp : ∀ v ∈ first, ∀ w ∈ second, R v w → S v w)
    (h : List.Forall₂ R first second) : List.Forall₂ S first second := by
  induction h with
  | nil => exact .nil
  | cons hhead _ ih =>
    refine .cons (himp _ List.mem_cons_self _ List.mem_cons_self hhead) (ih ?_)
    intro v hv w hw
    exact himp v (List.mem_cons_of_mem _ hv) w (List.mem_cons_of_mem _ hw)

theorem forall₂_trans_of_mem
    (htrans : ∀ u ∈ first, ∀ v ∈ second, ∀ w ∈ third, R u v → R v w → R u w)
    (h : List.Forall₂ R first second) (h' : List.Forall₂ R second third) :
    List.Forall₂ R first third := by
  induction h generalizing third with
  | nil => exact h'
  | cons hhead _ ih =>
    cases h' with
    | cons hhead' htail' =>
      refine .cons ?_ (ih ?_ htail')
      · exact htrans _ List.mem_cons_self _ List.mem_cons_self _ List.mem_cons_self hhead hhead'
      · intro u hu v hv w hw
        exact htrans u (List.mem_cons_of_mem _ hu) v (List.mem_cons_of_mem _ hv) w
          (List.mem_cons_of_mem _ hw)

end Related

/-! ## Two values -/

namespace Value

def number (cell : Nat) (x : Binary64) : Value := ⟨cell, false, .scalar (.float x)⟩

/-- Neither value is hidden, and their contents have one form and pairwise equal members. -/
structure Compared (v w : Value) : Prop where
  left_shown : v.isHidden = false
  right_shown : w.isHidden = false
  sameForm : v.content.SameForm w.content
  members : List.Forall₂ (equal · ·) v.content.members w.content.members

theorem equal_iff {v w : Value} : v.equal w ↔ v.identical w ∨ v.Compared w := by
  rw [equal_eq, Bool.or_eq_true, Bool.and_eq_true, Bool.and_eq_true, Bool.not_eq_true',
    Bool.not_eq_true', Content.relate_iff]
  constructor
  · rintro (hsame | ⟨⟨hv, hw⟩, hform, hmembers⟩)
    · exact .inl hsame
    · exact .inr ⟨hv, hw, hform, hmembers⟩
  · rintro (hsame | ⟨hv, hw, hform, hmembers⟩)
    · exact .inl hsame
    · exact .inr ⟨⟨hv, hw⟩, hform, hmembers⟩

/-- A value equals its copies, whatever it holds. -/
theorem equal_refl (value : Value) : value.equal value :=
  equal_iff.mpr (.inl (beq_self_eq_true value.cell))

theorem equal_symm {v w : Value} (h : v.equal w) : w.equal v := by
  induction v using rec_stored generalizing w with
  | step v ih =>
    rcases equal_iff.mp h with hsame | ⟨hv, hw, hform, hmembers⟩
    · apply equal_iff.mpr
      exact .inl (beq_iff_eq.mpr (beq_iff_eq.mp hsame).symm)
    · have hback : List.Forall₂ (flip (equal · ·)) v.content.members w.content.members :=
        forall₂_imp_of_mem
          (fun stored hstored _ _ ↦ ih stored (v.content.members_subset_stored hstored)) hmembers
      exact equal_iff.mpr (.inr ⟨hw, hv, hform.symm, hback.flip⟩)

end Value

/-! ## Values, rows and records of one supply -/

namespace Issued

variable {next : Nat} {values : List Value}

/-- The rule for values of one supply: a value equals itself and what it compares with. -/
theorem equal_iff (h : Issued next values) {v w : Value} (hv : v ∈ values) (hw : w ∈ values) :
    v.equal w ↔ v = w ∨ v.Compared w := by
  constructor
  · intro hequal
    exact (Value.equal_iff.mp hequal).imp_left (h.eq_of_identical hv hw)
  · rintro (rfl | hcompared)
    · exact v.equal_refl
    · exact Value.equal_iff.mpr (.inr hcompared)

theorem equal_trans (h : Issued next values) {u v w : Value} (hu : u ∈ values) (hv : v ∈ values)
    (hw : w ∈ values) (huv : u.equal v) (hvw : v.equal w) : u.equal w := by
  induction u using Value.rec_stored generalizing v w with
  | step u ih =>
    rcases (h.equal_iff hu hv).mp huv with rfl | hfirst
    · exact hvw
    · rcases (h.equal_iff hv hw).mp hvw with rfl | hsecond
      · exact huv
      · have hmembers : List.Forall₂ (Value.equal · ·) u.content.members w.content.members := by
          refine forall₂_trans_of_mem ?_ hfirst.members hsecond.members
          intro x hx y hy z hz
          exact ih x (u.content.members_subset_stored hx) (h.members_subset hu hx)
            (h.members_subset hv hy) (h.members_subset hw hz)
        exact Value.equal_iff.mpr
          (.inr ⟨hfirst.left_shown, hsecond.right_shown, hfirst.sameForm.trans hsecond.sameForm,
            hmembers⟩)

/-- Comparing lists of values of one supply is an equivalence. -/
theorem relateEach_equivalence (h : Issued next values) :
    Equivalence fun fields others : {fields : List Value // fields ⊆ values} ↦
      Content.relateEach Value.equal fields.1 others.1 = true where
  refl fields := relateEach_iff.mpr (List.forall₂_same.mpr fun value _ ↦ value.equal_refl)
  symm hfirst := by
    apply relateEach_iff.mpr
    exact ((relateEach_iff.mp hfirst).imp fun _ _ ↦ Value.equal_symm).flip
  trans {first second third} hfirst hsecond := by
    apply relateEach_iff.mpr
    refine forall₂_trans_of_mem ?_ (relateEach_iff.mp hfirst) (relateEach_iff.mp hsecond)
    intro u hu v hv w hw
    exact h.equal_trans (first.2 hu) (second.2 hv) (third.2 hw)

/-- Among the values that a supply has issued, equality is an equivalence, and so is equality of
rows and of records whose fields are such values, whatever is pending on the records. Two values
are equal if they are one value, or if neither is hidden and they agree in form and members. -/
theorem equal_equivalence (h : Issued next values) :
    (Equivalence fun v w : {v : Value // v ∈ values} ↦ v.1.equal w.1 = true) ∧
    (Equivalence fun row other : {row : Row Value // row.toList ⊆ values} ↦
      (Content.row row.1).relate Value.equal (.row other.1) = true) ∧
    (Equivalence fun record other : {record : Record Value // record.toList ⊆ values} ↦
      (Content.record record.1).relate Value.equal (.record other.1) = true) ∧
    ∀ v ∈ values, ∀ w ∈ values, v.equal w ↔ v = w ∨ v.Compared w := by
  refine ⟨?_, ?_, ?_, ?_⟩
  · exact ⟨fun v ↦ v.1.equal_refl, Value.equal_symm, fun {u v w} ↦ h.equal_trans u.2 v.2 w.2⟩
  · exact h.relateEach_equivalence.comap
      fun row : {row : Row Value // row.toList ⊆ values} ↦ ⟨row.1.toList, row.2⟩
  · exact h.relateEach_equivalence.comap
      fun record : {record : Record Value // record.toList ⊆ values} ↦ ⟨record.1.toList, record.2⟩
  · exact fun v hv w hw ↦ h.equal_iff hv hw

/-- Three records with the fields not-a-number, a zero and a sealed value, where the middle one
has the other zero: one record has its first field prepended, one has all its fields in its row,
and one has its last field overwritten. The first field equals its copies and nothing else, not
even another value with the same content. -/
theorem equal_equivalence_around_nan :
    let nan : Value := .number 0 .notANumber
    let token : Value := ⟨1, true, .scalar (.token ⟨"token", "token"⟩)⟩
    let zero : Value := .number 2 (.ofMagnitude false 0)
    let negative : Value := .number 3 (.ofMagnitude true 0)
    let other : Value := .number 4 .notANumber
    let prepended : Value := ⟨5, false, .record ((Record.ofList [zero, token]).prepend [nan])⟩
    let whole : Value := ⟨6, false, .record (.ofList [nan, negative, token])⟩
    let written : Value := ⟨7, false, .record ⟨.ofList [nan, zero, zero], ⟨⟨[(2, token)]⟩, #[]⟩⟩⟩
    Issued 8 [written, whole, prepended, other, negative, zero, token, nan] ∧
      prepended.equal whole ∧ whole.equal written ∧ prepended.equal written ∧
      nan.equal nan ∧ ¬ nan.equal other := by
  intro nan token zero negative other prepended whole written
  have hscalars : Issued 5 [other, negative, zero, token, nan] :=
    ((((start.scalar _ _).scalar _ _).scalar _ _).scalar _ _).scalar _ _
  have hprepended : prepended.content.stored ⊆ [other, negative, zero, token, nan] := by
    change [zero, token, nan] ⊆ _
    simp
  have hwhole : whole.content.stored ⊆ [prepended, other, negative, zero, token, nan] := by
    change [nan, negative, token] ⊆ _
    simp
  have hwritten : written.content.stored ⊆
      [whole, prepended, other, negative, zero, token, nan] := by
    change [nan, zero, zero, token] ⊆ _
    simp
  have h : Issued 8 [written, whole, prepended, other, negative, zero, token, nan] :=
    .place (.place (.place hscalars hprepended rfl) hwhole rfl) hwritten rfl
  have hfirst : prepended.equal whole := by decide +kernel
  have hsecond : whole.equal written := by decide +kernel
  have hequivalence := h.equal_equivalence.1
  refine ⟨h, hfirst, hsecond, ?_, hequivalence.refl ⟨nan, by simp⟩, by decide +kernel⟩
  exact hequivalence.trans (x := ⟨prepended, by simp⟩) (y := ⟨whole, by simp⟩)
    (z := ⟨written, by simp⟩) hfirst hsecond

end Issued

end PositionalRecord
