import PositionalRecord.Proofs.Congruence
import PositionalRecord.Value.Text

/-!
# Laws of contents

A content is compared by two things: its form, which is a scalar or a sort of container, and its
members, which are the values in it that count. A record counts with its current fields only, and
pending changes that stand alone have no form in common with anything. `Content.relate_iff` takes
equality of contents apart into these two, and `SameForm.doc_eq` does the same for their texts, so
that what is proved of values afterwards needs no cases on what they hold. The current fields of a
record are those that reading it gives, so `relate_record_eq`, `doc_record_eq` and
`mem_members_record_iff` say the same of records without their list of fields.
-/

namespace PositionalRecord

/-! ## Numbers and scalars -/

theorem Binary64.equal_iff {x y : Binary64} :
    x.equal y ↔ x.isNaN = false ∧ y.isNaN = false ∧ (x = y ∨ x.isZero ∧ y.isZero) := by
  obtain ⟨bits⟩ := x
  obtain ⟨other⟩ := y
  simp only [equal, Bool.and_eq_true, Bool.or_eq_true, Bool.not_eq_true', beq_iff_eq, mk.injEq,
    and_assoc]

theorem Binary64.equal_symm {x y : Binary64} (h : x.equal y) : y.equal x := by
  obtain ⟨hx, hy, hsame⟩ := equal_iff.mp h
  exact equal_iff.mpr ⟨hy, hx, hsame.imp Eq.symm And.symm⟩

theorem Binary64.equal_trans {x y z : Binary64} (hxy : x.equal y) (hyz : y.equal z) :
    x.equal z := by
  obtain ⟨hx, -, hfirst⟩ := equal_iff.mp hxy
  obtain ⟨-, hz, hsecond⟩ := equal_iff.mp hyz
  refine equal_iff.mpr ⟨hx, hz, ?_⟩
  rcases hfirst with rfl | hzeros
  · exact hsecond
  · rcases hsecond with rfl | ⟨-, hzero⟩
    · exact .inr hzeros
    · exact .inr ⟨hzeros.1, hzero⟩

namespace Scalar

theorem equal_iff {s t : Scalar} :
    s.equal t ↔
      (∃ x y, s = .float x ∧ t = .float y ∧ x.equal y) ∨ ((∀ x, s ≠ .float x) ∧ s = t) := by
  by_cases hfloat : ∃ x, s = .float x
  · obtain ⟨x, rfl⟩ := hfloat
    cases t <;> simp [equal]
  · have hother : ∀ x, s ≠ .float x := fun x hx ↦ hfloat ⟨x, hx⟩
    have hequal : s.equal t = decide (s = t) := by
      unfold equal
      split
      next x y => exact absurd rfl (hother x)
      next => rfl
    simp [hequal, hother]

theorem equal_symm {s t : Scalar} (h : s.equal t) : t.equal s := by
  rcases equal_iff.mp h with ⟨x, y, rfl, rfl, hxy⟩ | ⟨-, rfl⟩
  · exact Binary64.equal_symm hxy
  · exact h

theorem equal_trans {s t u : Scalar} (hst : s.equal t) (htu : t.equal u) : s.equal u := by
  rcases equal_iff.mp hst with ⟨x, y, rfl, rfl, hxy⟩ | ⟨-, rfl⟩
  · rcases equal_iff.mp htu with ⟨_, z, hy, rfl, hyz⟩ | ⟨hfloat, -⟩
    · cases hy
      exact Binary64.equal_trans hxy hyz
    · exact absurd rfl (hfloat y)
  · exact htu

theorem kind_eq_of_equal {s t : Scalar} (h : s.equal t) : s.kind = t.kind := by
  rcases equal_iff.mp h with ⟨x, y, rfl, rfl, -⟩ | ⟨-, rfl⟩ <;> rfl

/-- Only the two zeros are equal without being the same scalar. -/
theorem eq_of_equal {s t : Scalar} (h : s.equal t) (hzero : ∀ x, s = .float x → x.isZero = false) :
    s = t := by
  rcases equal_iff.mp h with ⟨x, y, rfl, rfl, hxy⟩ | ⟨-, hsame⟩
  · obtain ⟨-, -, rfl | ⟨hx, -⟩⟩ := Binary64.equal_iff.mp hxy
    · rfl
    · rw [hzero x rfl] at hx
      cases hx
  · exact hsame

end Scalar

/-! ## Forms and members -/

namespace Content

variable {ν μ : Type}

/-- The contents are equal scalars, or containers of one sort, whatever they hold. -/
inductive SameForm : Content ν → Content ν → Prop
  | scalar {s t : Scalar} (h : s.equal t) : SameForm (.scalar s) (.scalar t)
  | boxed (v w : ν) : SameForm (.boxed v) (.boxed w)
  | list (vs ws : List ν) : SameForm (.list vs) (.list ws)
  | pair (v v' w w' : ν) : SameForm (.pair v v') (.pair w w')
  | option (v w : Option ν) : SameForm (.option v) (.option w)
  | constant (k l : Constant ν) : SameForm (.constant k) (.constant l)
  | row (r s : Row ν) : SameForm (.row r) (.row s)
  | constants (r s : Row (Constant ν)) : SameForm (.constants r) (.constants s)
  | record (r s : Record ν) : SameForm (.record r) (.record s)

/-- The values inside that count: of a record the current fields, of pending changes none. -/
def members : Content ν → List ν
  | .scalar _ => []
  | .boxed v => [v]
  | .list vs => vs
  | .pair left right => [left, right]
  | .option v => v.toList
  | .constant k => [k.inner]
  | .row r => r.toList
  | .constants r => r.collapse
  | .record r => r.toList
  | .pending _ => []

theorem SameForm.symm {left right : Content ν} (h : left.SameForm right) :
    right.SameForm left := by
  cases h with
  | scalar hequal => exact .scalar (Scalar.equal_symm hequal)
  | _ => constructor

theorem SameForm.trans {first second third : Content ν} (h : first.SameForm second)
    (h' : second.SameForm third) : first.SameForm third := by
  cases h with
  | scalar hequal =>
    cases h' with
    | scalar hequal' => exact .scalar (Scalar.equal_trans hequal hequal')
  | _ =>
    cases h'
    constructor

theorem SameForm.kind_eq {left right : Content ν} (h : left.SameForm right) :
    left.kind = right.kind := by
  cases h with
  | scalar hequal => exact Scalar.kind_eq_of_equal hequal
  | _ => rfl

/-- The current fields of a record are among all its values. -/
theorem toList_subset_stored (record : Record ν) : record.toList ⊆ (Content.record record).stored := by
  intro field hfield
  simp only [stored, List.mem_append]
  rcases List.mem_append.mp hfield with hprepended | hown
  · exact .inr (by simpa [Pending.fields] using hprepended)
  · exact .inl (List.mem_append.mp (record.pending.overwrites.overlay_subset _ hown))

theorem members_subset_stored (content : Content ν) : content.members ⊆ content.stored := by
  cases content with
  | record r => exact toList_subset_stored r
  | pending p => exact List.nil_subset _
  | _ => exact List.Subset.refl _

/-- Contents are related if they have one form and their members are related. -/
theorem relate_iff {related : ν → ν → Bool} {left right : Content ν} :
    left.relate related right ↔
      left.SameForm right ∧ List.Forall₂ (related · ·) left.members right.members := by
  constructor
  · intro h
    unfold relate at h
    split at h
    case h_1 => exact ⟨.scalar h, .nil⟩
    case h_2 => exact ⟨.boxed _ _, .cons h .nil⟩
    case h_3 => exact ⟨.list _ _, relateEach_iff.mp h⟩
    case h_4 =>
      obtain ⟨hleft, hright⟩ := Bool.and_eq_true_iff.mp h
      exact ⟨.pair _ _ _ _, .cons hleft (.cons hright .nil)⟩
    case h_5 => exact ⟨.option _ _, relateEach_iff.mp h⟩
    case h_6 => exact ⟨.constant _ _, .cons h .nil⟩
    case h_7 => exact ⟨.row _ _, relateEach_iff.mp h⟩
    case h_8 => exact ⟨.constants _ _, relateEach_iff.mp h⟩
    case h_9 => exact ⟨.record _ _, relateEach_iff.mp h⟩
    case h_10 => cases h
  · rintro ⟨hform, hmembers⟩
    cases hform with
    | scalar h => exact h
    | boxed v w => exact (List.forall₂_cons.mp hmembers).1
    | pair v v' w w' =>
      obtain ⟨hleft, hrest⟩ := List.forall₂_cons.mp hmembers
      exact Bool.and_eq_true_iff.mpr ⟨hleft, (List.forall₂_cons.mp hrest).1⟩
    | constant k l => exact (List.forall₂_cons.mp hmembers).1
    | list | option | row | constants | record => exact relateEach_iff.mpr hmembers

/-- The document of a content is made of its form and the documents of its members. -/
theorem SameForm.doc_eq {left right : Content ν} (h : left.SameForm right) {shown : ν → Doc}
    (hscalar : ∀ s t, left = .scalar s → right = .scalar t → s.doc = t.doc)
    (hmembers : left.members.map shown = right.members.map shown) :
    left.doc shown = right.doc shown := by
  cases h with
  | scalar hequal => exact hscalar _ _ rfl rfl
  | boxed v w => exact (List.cons.inj hmembers).1
  | pair v v' w w' =>
    obtain ⟨hleft, hrest⟩ := List.cons.inj hmembers
    rw [doc, doc, hleft, (List.cons.inj hrest).1]
  | option v w =>
    cases v with
    | none =>
      cases w with
      | none => rfl
      | some w => cases hmembers
    | some v =>
      cases w with
      | none => cases hmembers
      | some w => exact congrArg (Doc.applied "Some") (List.cons.inj hmembers).1
  | constant k l => exact congrArg constantDoc (List.cons.inj hmembers).1
  | constants r s =>
    have hconstants := congrArg (List.map constantDoc) hmembers
    rw [List.map_map, List.map_map] at hconstants
    exact congrArg Doc.list hconstants
  | list | row | record => exact congrArg Doc.list hmembers

/-! ## Records through their reads -/

/-- Records are equal if they have one length and what is read from them one after the other is
equal position by position. -/
theorem relate_record_eq (related : ν → μ → Bool) (left : Record ν) (right : Record μ) :
    (do return left.length == right.length &&
        relateFront related (← left.scan) (← right.scan)) =
      Except.ok ((Content.record left).relate related (.record right)) := by
  rw [left.scan_eq, right.scan_eq, ← left.length_toList, ← right.length_toList]
  rfl

/-- A record is shown as the list of what is read from it one after the other. -/
theorem doc_record_eq (shown : ν → Doc) (record : Record ν) :
    (fun fields ↦ Doc.list (fields.map shown)) <$> record.scan =
      .ok ((Content.record record).doc shown) := by
  rw [record.scan_eq]
  rfl

/-- The members of a record are what its positions answer. -/
theorem mem_members_record_iff {record : Record ν} {value : ν} :
    value ∈ (Content.record record).members ↔ ∃ index, record.get index = .ok value := by
  simp only [members, Record.get_eq_ok_iff]
  exact List.mem_iff_getElem?

end Content

end PositionalRecord
