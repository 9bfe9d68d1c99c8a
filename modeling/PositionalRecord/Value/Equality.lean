import PositionalRecord.Value.Basic

/-!
# Equality of values

A value equals its copies, whatever it holds. Values in different cells are equal if both can be
compared, are of one kind, and have equal contents; the values inside are compared by the same
rule. `equal_eq` states the rule as one equation.
-/

namespace PositionalRecord

namespace Content

variable {ν μ κ : Type}

theorem relateFront_map_left (related : μ → κ → Bool) (f : ν → μ) (vs : List ν) (ws : List κ) :
    relateFront related (vs.map f) ws = relateFront (fun v ↦ related (f v)) vs ws := by
  induction vs generalizing ws with
  | nil => cases ws <;> rfl
  | cons v vs ih =>
    cases ws with
    | nil => rfl
    | cons w ws => simp only [List.map_cons, relateFront, ih]

theorem relateEach_map_left (related : μ → κ → Bool) (f : ν → μ) (vs : List ν) (ws : List κ) :
    relateEach related (vs.map f) ws = relateEach (fun v ↦ related (f v)) vs ws := by
  simp only [relateEach, List.length_map, relateFront_map_left]

@[simp]
theorem relateEach_nil (related : ν → μ → Bool) : relateEach related [] [] = true := rfl

@[simp]
theorem relateEach_cons (related : ν → μ → Bool) (v : ν) (vs : List ν) (w : μ) (ws : List μ) :
    relateEach related (v :: vs) (w :: ws) = (related v w && relateEach related vs ws) := by
  simp only [relateEach, relateFront, List.length_cons]
  cases related v w <;> simp

theorem relate_map_left (related : μ → κ → Bool) (f : ν → μ) (left : Content ν)
    (right : Content κ) :
    (left.map f).relate related right = left.relate (fun v ↦ related (f v)) right := by
  cases left <;> cases right <;>
    simp only [map, relate, Constant.map, Row.toList_map, Row.collapse_map,
      Record.toList_mapStored, relateEach_map_left]
  case option.option v w => cases v <;> cases w <;> rfl

end Content

namespace Value

/-! ## The rule -/

/-- Equality of values. Copies are equal without a look at what they hold. -/
def equal : Value → Value → Bool :=
  fold fun cell isSealed content other ↦
    cell == other.cell ||
      (!(isSealed || content.isPending) && !other.isHidden &&
        content.relate (fun equalTo ↦ equalTo ()) other.content)

/-- Copies are equal; other values are equal if neither is hidden and their contents are equal. -/
theorem equal_eq (left right : Value) :
    left.equal right =
      (left.identical right ||
        (!left.isHidden && !right.isHidden && left.content.relate equal right.content)) := by
  rw [equal, fold_eq]
  simp only [Content.isPending_map, Content.relate_map_left]
  rfl

end Value

end PositionalRecord
