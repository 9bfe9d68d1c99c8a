import PositionalRecord.Proofs.Equivalence

/-!
# Rebuilt values

A value is rebuilt when it is made once more from nothing: with the same content and the same seal
at every level, and every level in another cell. The short way for copies is then closed at every
level, so the two are equal only if all that occurs in them compares with a remake of itself. What
is hidden does not, and neither does a number that is none; everything else does, by induction on
what is stored. A record counts with its current fields, so a remake may have other changes pending,
and what a change hides plays no part.
-/

namespace PositionalRecord

/-! ## Scalars and contents -/

/-- A scalar equals itself unless it is a number that is none. -/
theorem Scalar.equal_self_iff {s : Scalar} : s.equal s ↔ ∀ x, s = .float x → x.isNaN = false := by
  rw [equal_iff]
  constructor
  · rintro (⟨x, _, rfl, hx, hequal⟩ | ⟨hother, -⟩) y hy
    · cases hx
      cases hy
      exact (Binary64.equal_iff.mp hequal).1
    · exact absurd hy (hother y)
  · intro h
    by_cases hfloat : ∃ x, s = .float x
    · obtain ⟨x, rfl⟩ := hfloat
      exact .inl ⟨x, x, rfl, rfl, Binary64.equal_iff.mpr ⟨h x rfl, h x rfl, .inl rfl⟩⟩
    · exact .inr ⟨fun x hx ↦ hfloat ⟨x, hx⟩, rfl⟩

namespace Content

variable {ν μ κ : Type}

/-- Whether a content is a number that is none. -/
def isNaN : Content ν → Bool
  | .scalar (.float x) => x.isNaN
  | _ => false

theorem isNaN_scalar_eq_false_iff {s : Scalar} :
    (scalar s : Content ν).isNaN = false ↔ ∀ x, s = .float x → x.isNaN = false := by
  cases s <;> simp [isNaN]

/-- The contents are the same scalar, or containers of one sort that hold related values place by
place. A record is copied with its current fields, whatever is pending on either side. -/
inductive Copied (related : ν → ν → Prop) : Content ν → Content ν → Prop
  | scalar (s : Scalar) : Copied related (.scalar s) (.scalar s)
  | boxed {v w : ν} (h : related v w) : Copied related (.boxed v) (.boxed w)
  | list {vs ws : List ν} (h : List.Forall₂ related vs ws) : Copied related (.list vs) (.list ws)
  | pair {v v' w w' : ν} (hleft : related v w) (hright : related v' w') :
      Copied related (.pair v v') (.pair w w')
  | option {v w : Option ν} (h : List.Forall₂ related v.toList w.toList) :
      Copied related (.option v) (.option w)
  | constant {k l : Constant ν} (h : related k.inner l.inner) :
      Copied related (.constant k) (.constant l)
  | row {r s : Row ν} (h : List.Forall₂ related r.toList s.toList) :
      Copied related (.row r) (.row s)
  | constants {r s : Row (Constant ν)} (h : List.Forall₂ related r.collapse s.collapse) :
      Copied related (.constants r) (.constants s)
  | record {r s : Record ν} (h : List.Forall₂ related r.toList s.toList) :
      Copied related (.record r) (.record s)
  | pending {p q : Pending ν} (hkeys : p.overwrites.keys = q.overwrites.keys)
      (hvalues : List.Forall₂ related p.overwrites.values q.overwrites.values)
      (hbuffer : List.Forall₂ related p.buffer.toList q.buffer.toList) :
      Copied related (.pending p) (.pending q)

namespace Copied

variable {related : ν → ν → Prop} {left right : Content ν}

theorem isPending_eq (h : left.Copied related right) : left.isPending = right.isPending := by
  cases h <;> rfl

theorem members (h : left.Copied related right) :
    List.Forall₂ related left.members right.members := by
  cases h with
  | scalar s => exact .nil
  | boxed h => exact .cons h .nil
  | pair hleft hright => exact .cons hleft (.cons hright .nil)
  | constant h => exact .cons h .nil
  | list h | option h | row h | constants h | record h => exact h
  | pending => exact .nil

/-- A content and its copy have one form, unless they are pending changes, which have a form in
common with nothing, or a number that is none. -/
theorem sameForm_iff (h : left.Copied related right) :
    left.SameForm right ↔ left.isPending = false ∧ left.isNaN = false := by
  cases h with
  | scalar s =>
    rw [isNaN_scalar_eq_false_iff, ← Scalar.equal_self_iff]
    constructor
    · rintro ⟨hequal⟩
      exact ⟨rfl, hequal⟩
    · exact fun hequal ↦ .scalar hequal.2
  | pending => exact ⟨nofun, fun hshown ↦ nomatch hshown.1⟩
  | _ => exact ⟨fun _ ↦ ⟨rfl, rfl⟩, fun _ ↦ by constructor⟩

end Copied

theorem map_map (g : μ → κ) (f : ν → μ) (content : Content ν) :
    (content.map f).map g = content.map fun v ↦ g (f v) := by
  cases content <;>
    simp [map, Constant.map, Row.map, Record.mapStored, Pending.map, Overwrites.map,
      Function.comp_def]

/-- Acting on all values inside copies a content, if it relates every value to what becomes of
it. -/
theorem copied_map {related : ν → ν → Prop} {f : ν → ν} {content : Content ν}
    (h : ∀ v ∈ content.stored, related v (f v)) : content.Copied related (content.map f) := by
  have hlist {vs : List ν} (hvs : vs ⊆ content.stored) : List.Forall₂ related vs (vs.map f) :=
    List.forall₂_map_right_iff.mpr (List.forall₂_same.mpr fun v hv ↦ h v (hvs hv))
  cases content with
  | scalar s => exact .scalar s
  | boxed v => exact .boxed (h v List.mem_cons_self)
  | list vs => exact .list (hlist (List.Subset.refl vs))
  | pair v v' =>
    exact .pair (h v List.mem_cons_self) (h v' (List.mem_cons_of_mem v List.mem_cons_self))
  | option v =>
    refine .option ?_
    rw [Option.toList_map]
    exact hlist (List.Subset.refl v.toList)
  | constant k => exact .constant (h k.inner List.mem_cons_self)
  | row r =>
    refine .row ?_
    rw [Row.toList_map]
    exact hlist (List.Subset.refl r.toList)
  | constants r =>
    refine .constants ?_
    rw [Row.collapse_map]
    exact hlist (List.Subset.refl r.collapse)
  | record r =>
    refine .record ?_
    rw [Record.toList_mapStored]
    exact hlist (toList_subset_stored r)
  | pending p =>
    refine .pending ?_ ?_ ?_
    · simp [Pending.map, Overwrites.map, Overwrites.keys]
    · have hvalues : (p.map f).overwrites.values = p.overwrites.values.map f := by
        simp [Pending.map, Overwrites.map, Overwrites.values]
      rw [hvalues]
      exact hlist (List.subset_append_left _ _)
    · have hbuffer : (p.map f).buffer.toList = p.buffer.toList.map f := Array.toList_map
      rw [hbuffer]
      exact hlist (List.subset_append_right _ _)

end Content

/-- If of two related items only the first decides whether they are in another relation, then so
do the items of the first of two related lists. -/
theorem forall₂_iff_of_mem {α : Type} {R S : α → α → Prop} {P : α → Prop} {fields others : List α}
    (h : List.Forall₂ R fields others)
    (hiff : ∀ field ∈ fields, ∀ other, R field other → (S field other ↔ P field)) :
    List.Forall₂ S fields others ↔ ∀ field ∈ fields, P field := by
  induction h with
  | nil => simp
  | cons hhead _ ih =>
    obtain ⟨hfield, hrest⟩ := List.forall_mem_cons.mp hiff
    rw [List.forall₂_cons, List.forall_mem_cons, hfield _ hhead, ih hrest]

namespace Value

/-! ## Rebuilding -/

/-- The second value is the first one made once more: level by level it has the same content and
the same seal, in another cell. -/
inductive Rebuilt : Value → Value → Prop
  | level {v w : Value} (hcell : v.cell ≠ w.cell) (hsealed : v.isSealed = w.isSealed)
      (hcontent : v.content.Copied Rebuilt w.content) : Rebuilt v w

theorem Rebuilt.isHidden_eq {v w : Value} (h : v.Rebuilt w) : v.isHidden = w.isHidden := by
  obtain ⟨-, hsealed, hcontent⟩ := h
  rw [isHidden, isHidden, hsealed, hcontent.isPending_eq]

/-- The value with another number for each cell in it. -/
def renumbered (place : Nat → Nat) : Value → Value :=
  fold fun cell isSealed content ↦ ⟨place cell, isSealed, content.map fun stored ↦ stored ()⟩

theorem renumbered_eq (place : Nat → Nat) (value : Value) :
    value.renumbered place =
      ⟨place value.cell, value.isSealed, value.content.map (renumbered place)⟩ := by
  rw [renumbered, fold_eq, Content.map_map]

/-- Every value can be rebuilt: in the cells that another numbering gives. -/
theorem rebuilt_renumbered {place : Nat → Nat} (hplace : ∀ cell, place cell ≠ cell)
    (value : Value) : value.Rebuilt (value.renumbered place) := by
  induction value using rec_stored with
  | step value ih =>
    rw [renumbered_eq]
    exact .level (hplace value.cell).symm rfl (Content.copied_map ih)

/-! ## What decides -/

/-- The part is the whole, or occurs in one of its members. Of a record only the current fields
count. -/
inductive Occurs (part : Value) : Value → Prop
  | whole : Occurs part part
  | member {whole member : Value} (hmember : member ∈ whole.content.members)
      (h : Occurs part member) : Occurs part whole

/-- Nothing hidden occurs in the value, and no number that is none. What is held by something
hidden makes no difference, since what holds it occurs too. -/
def IsComparable (value : Value) : Prop :=
  ∀ part, Occurs part value → part.isHidden = false ∧ part.content.isNaN = false

theorem isComparable_iff {value : Value} :
    value.IsComparable ↔
      (value.isHidden = false ∧ value.content.isNaN = false) ∧
        ∀ member ∈ value.content.members, member.IsComparable := by
  constructor
  · intro h
    exact ⟨h value .whole, fun member hmember part hpart ↦ h part (.member hmember hpart)⟩
  · rintro ⟨hvalue, hmembers⟩ part hpart
    cases hpart with
    | whole => exact hvalue
    | member hmember hpart => exact hmembers _ hmember part hpart

theorem Rebuilt.equal_iff_isComparable {v w : Value} (h : v.Rebuilt w) :
    v.equal w ↔ v.IsComparable := by
  induction v using rec_stored generalizing w with
  | step v ih =>
    have hhidden := h.isHidden_eq
    obtain ⟨hcell, -, hcontent⟩ := h
    -- The cells differ, so the two can only be equal by form and members.
    have hapart : ¬ v.identical w := fun hsame ↦ hcell (beq_iff_eq.mp hsame)
    have hmembers : List.Forall₂ (equal · ·) v.content.members w.content.members ↔
        ∀ member ∈ v.content.members, member.IsComparable :=
      forall₂_iff_of_mem hcontent.members fun member hmember _ ↦
        ih member (v.content.members_subset_stored hmember)
    rw [equal_iff, or_iff_right hapart, isComparable_iff, ← hmembers]
    constructor
    · rintro ⟨hshown, -, hform, hequal⟩
      have hnumber := (hcontent.sameForm_iff.mp hform).2
      exact ⟨⟨hshown, hnumber⟩, hequal⟩
    · rintro ⟨⟨hshown, hnumber⟩, hequal⟩
      have hpending : v.content.isPending = false := (Bool.or_eq_false_iff.mp hshown).2
      have hform := hcontent.sameForm_iff.mpr ⟨hpending, hnumber⟩
      exact ⟨hshown, hhidden ▸ hshown, hform, hequal⟩

/-- Every value can be rebuilt, and equals a value rebuilt from it exactly if nothing hidden and no
number that is none occurs in it. -/
theorem rebuilt_equal_iff (v : Value) :
    (∀ place : Nat → Nat, (∀ cell, place cell ≠ cell) → v.Rebuilt (v.renumbered place)) ∧
      ∀ w, v.Rebuilt w →
        (v.equal w ↔ ∀ part, Occurs part v → part.isHidden = false ∧ part.content.isNaN = false) :=
  ⟨fun _ hplace ↦ rebuilt_renumbered hplace v, fun _ h ↦ h.equal_iff_isComparable⟩

/-- A list of a record that shows one and zero: the one is prepended, and the zero overwrites
not-a-number. In the list rebuilt from it the record has both overwrite a sealed value, and the two
lists are equal. Pairs in which not-a-number or the sealed value can be seen differ from what is
rebuilt from them. -/
theorem rebuilt_equal_overwritten_apart :
    let nan : Value := .number 0 .notANumber
    let token : Value := ⟨1, true, .scalar (.token ⟨"token", "token"⟩)⟩
    let zero : Value := .number 2 (.ofMagnitude false 0)
    let one : Value := ⟨3, false, .scalar (.int .i64 1)⟩
    let record : Value := ⟨4, false, .record ⟨.ofList [nan], ⟨⟨[(0, zero)]⟩, #[one]⟩⟩⟩
    let zero' : Value := .number 5 (.ofMagnitude false 0)
    let one' : Value := ⟨6, false, .scalar (.int .i64 1)⟩
    let record' : Value :=
      ⟨7, false, .record ⟨.ofList [token, token], ⟨⟨[(1, zero'), (0, one')]⟩, #[]⟩⟩⟩
    let whole : Value := ⟨8, false, .list [record]⟩
    let whole' : Value := ⟨9, false, .list [record']⟩
    let numbers : Value := ⟨10, false, .pair one nan⟩
    let tokens : Value := ⟨11, false, .pair one token⟩
    whole.Rebuilt whole' ∧ whole.equal whole' ∧
      numbers.Rebuilt (numbers.renumbered (· + 20)) ∧ ¬ numbers.equal (numbers.renumbered (· + 20)) ∧
      tokens.Rebuilt (tokens.renumbered (· + 20)) ∧ ¬ tokens.equal (tokens.renumbered (· + 20)) := by
  intro nan token zero one record zero' one' record' whole whole' numbers tokens
  have hzero : zero.Rebuilt zero' := .level (by decide) rfl (.scalar _)
  have hone : one.Rebuilt one' := .level (by decide) rfl (.scalar _)
  have hrecord : record.Rebuilt record' :=
    .level (by decide) rfl (.record (.cons hone (.cons hzero .nil)))
  have hwhole : whole.Rebuilt whole' := .level (by decide) rfl (.list (.cons hrecord .nil))
  have hscalar {value : Value} (hshown : value.isHidden = false ∧ value.content.isNaN = false)
      (hmembers : value.content.members = []) : value.IsComparable :=
    isComparable_iff.mpr ⟨hshown, by rw [hmembers]; exact nofun⟩
  have hcomparable : whole.IsComparable := by
    refine isComparable_iff.mpr ⟨⟨rfl, rfl⟩, List.forall_mem_singleton.mpr ?_⟩
    refine isComparable_iff.mpr ⟨⟨rfl, rfl⟩, ?_⟩
    change ∀ member ∈ [one, zero], member.IsComparable
    simp only [List.forall_mem_cons]
    exact ⟨hscalar ⟨rfl, rfl⟩ rfl, hscalar ⟨rfl, by decide⟩ rfl, nofun⟩
  have hplace (cell : Nat) : cell + 20 ≠ cell := by omega
  obtain ⟨hnumbers, hnumbersIff⟩ := rebuilt_equal_iff numbers
  obtain ⟨htokens, htokensIff⟩ := rebuilt_equal_iff tokens
  refine ⟨hwhole, ((rebuilt_equal_iff whole).2 _ hwhole).mpr hcomparable,
    hnumbers _ hplace, ?_, htokens _ hplace, ?_⟩
  · intro hequal
    have hnan := (hnumbersIff _ (hnumbers _ hplace)).mp hequal nan
      (.member (List.mem_cons_of_mem _ List.mem_cons_self) .whole)
    exact absurd hnan.2 (by decide)
  · intro hequal
    have htoken := (htokensIff _ (htokens _ hplace)).mp hequal token
      (.member (List.mem_cons_of_mem _ List.mem_cons_self) .whole)
    exact absurd htoken.1 (by decide)

end Value

end PositionalRecord
