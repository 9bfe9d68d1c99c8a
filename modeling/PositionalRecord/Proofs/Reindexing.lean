import PositionalRecord.Proofs.LastWrites
import PositionalRecord.Proofs.Projections

/-!
# Overwrites under other positions

Fields can be overwritten before the row is rebuilt or after it, if the updates follow the fields
to their new positions. Prepending moves every field by the number of prepended ones. A projection
takes a field to each position at which it is asked for, which may be several or none, and of all
writes of the field only the last one has to come along.
-/

namespace PositionalRecord

variable {α : Type}

/-! ## Behind prepended fields -/

/-- The same updates in a row with `count` more fields in front. -/
def shifted (count : Nat) (updates : List (Nat × α)) : List (Nat × α) :=
  updates.map fun update ↦ (count + update.1, update.2)

/-- The same refused access to a row with `count` more fields in front. -/
def Violation.shifted (count : Nat) : Violation → Violation
  | .outOfBounds access index length => .outOfBounds access (count + index) (count + length)
  | .shapeMismatch pairing left right => .shapeMismatch pairing left right

/-- The first position past the end stays the first one. -/
theorem find?_shifted (count length : Nat) (updates : List (Nat × α)) :
    ((shifted count updates).map Prod.fst).find? (count + length ≤ ·) =
      ((updates.map Prod.fst).find? (length ≤ ·)).map (count + ·) := by
  have hbound : (fun index ↦ decide (count + length ≤ index)) ∘ (count + ·) =
      fun index ↦ decide (length ≤ index) := by
    funext index
    simp
  calc
    ((shifted count updates).map Prod.fst).find? (count + length ≤ ·) =
        ((updates.map Prod.fst).map (count + ·)).find? (count + length ≤ ·) := by
      rw [shifted, List.map_map, List.map_map]
      rfl
    _ = ((updates.map Prod.fst).find? (length ≤ ·)).map (count + ·) := by
      rw [List.find?_map, hbound]

namespace Row

theorem written_shifted (front fields : List α) (updates : List (Nat × α)) :
    written (front ++ fields) (shifted front.length updates) = front ++ written fields updates := by
  induction updates generalizing fields with
  | nil => rfl
  | cons update rest ih =>
    have hset : (front ++ fields).set (front.length + update.1) update.2 =
        front ++ fields.set update.1 update.2 := by
      rw [List.set_append_right _ _ (Nat.le_add_right _ _), Nat.add_sub_cancel_left]
    rw [shifted, List.map_cons, written_cons, hset, written_cons]
    exact ih _

/-- Overwriting behind prepended fields is prepending to the overwritten row, and is refused
alike. -/
theorem overwrite_shifted (row : Row α) (fields : List α) (updates : List (Nat × α)) :
    (row.prepend fields).overwrite (shifted fields.length updates) =
      match row.overwrite updates with
      | .ok next => .ok (next.prepend fields)
      | .error broken => .error (broken.shifted fields.length) := by
  rw [overwrite_eq, overwrite_eq, length_prepend, find?_shifted, toList_prepend, written_shifted]
  cases (updates.map Prod.fst).find? (row.length ≤ ·) with
  | some index => rfl
  | none =>
    apply congrArg Except.ok
    apply ext_toList
    rw [toList_prepend, toList_ofList, toList_ofList]

/-- What is prepended last comes first. -/
theorem prepend_prepend (row : Row α) (first second : List α) :
    (row.prepend second).prepend first = row.prepend (first ++ second) := by
  apply ext_toList
  rw [toList_prepend, toList_prepend, toList_prepend, List.append_assoc]

end Row

/-! ## At the positions of a projection -/

/-- The updates carried along by a projection on `indices`: wherever it asks for a field that is
written, the last value written. -/
def carried (updates : List (Nat × α)) (indices : List Nat) : List (Nat × α) :=
  indices.zipIdx.filterMap fun asked ↦ (lastWrite? updates asked.1).map (asked.2, ·)

theorem carried_concat (updates : List (Nat × α)) (front : List Nat) (index : Nat) :
    carried updates (front ++ [index]) =
      carried updates front ++ ((lastWrite? updates index).map (front.length, ·)).toList := by
  unfold carried
  rw [List.zipIdx_append, List.filterMap_append]
  cases hwrite : lastWrite? updates index <;> simp [hwrite]

/-- At each of its positions a projection is brought the last value that was written to the field
it asks for. -/
theorem lastWrite?_carried (updates : List (Nat × α)) (indices : List Nat) (position : Nat) :
    lastWrite? (carried updates indices) position =
      indices[position]?.bind (lastWrite? updates) := by
  induction indices using List.reverseRecOn with
  | nil => rfl
  | append_singleton front index ih =>
    rw [carried_concat, lastWrite?_append, ih]
    by_cases hposition : position = front.length
    · subst hposition
      rw [List.getElem?_concat_length, List.getElem?_eq_none (Nat.le_refl _), Option.bind_none,
        Option.or_none, Option.bind_some]
      cases lastWrite? updates index with
      | some value => exact (lastWrite?_singleton _ value _).trans (if_pos rfl)
      | none => rfl
    · have hother : lastWrite? ((lastWrite? updates index).map (front.length, ·)).toList position =
          none := by
        rw [lastWrite?_eq_none_iff]
        intro update hupdate
        rw [Option.mem_toList, Option.map_eq_some_iff] at hupdate
        obtain ⟨value, -, rfl⟩ := hupdate
        exact Ne.symm hposition
      have hfront : (front ++ [index])[position]? = front[position]? := by
        rcases Nat.lt_or_gt_of_ne hposition with hbefore | hafter
        · exact List.getElem?_append_left hbefore
        · rw [List.getElem?_eq_none (Nat.le_of_lt hafter),
            List.getElem?_eq_none (by rwa [List.length_append, List.length_singleton])]
      rw [hother, hfront, Option.none_or]

theorem carried_inRange (updates : List (Nat × α)) (indices : List Nat) :
    ∀ update ∈ carried updates indices, update.1 < indices.length := by
  intro update hupdate
  by_contra hpast
  have hnone : lastWrite? (carried updates indices) update.1 = none := by
    rw [lastWrite?_carried, List.getElem?_eq_none (Nat.le_of_not_lt hpast), Option.bind_none]
  exact lastWrite?_eq_none_iff.mp hnone update hupdate rfl

namespace Row

/-- Picking from written fields is picking first and writing what is carried along. -/
theorem picked_written {fields picked : List α} {indices : List Nat}
    (hrange : ∀ index ∈ indices, index < fields.length)
    (h : indices.mapM (fields[·]?) = some picked) (updates : List (Nat × α)) :
    indices.mapM ((written fields updates)[·]?) =
      some (written picked (carried updates indices)) := by
  rw [← length_written fields updates] at hrange
  obtain ⟨repicked, hrepicked⟩ := picked_of_inRange hrange
  rw [hrepicked]
  apply congrArg some
  apply List.ext_getElem?
  intro position
  rw [getElem?_of_picked hrepicked, getElem?_written, getElem?_of_picked h, lastWrite?_carried]
  cases indices[position]? with
  | none => rfl
  | some index => exact getElem?_written fields updates index

/-- Projecting an overwritten row is overwriting its projection. -/
theorem project_overwritten {row : Row α} {updates : List (Nat × α)} {indices : List Nat}
    (hupdates : ∀ update ∈ updates, update.1 < row.length)
    (hindices : ∀ index ∈ indices, index < row.length) :
    ∃ made, (do (← row.overwrite updates).project indices) = .ok made ∧
      (do (← row.project indices).overwrite (carried updates indices)) = .ok made := by
  obtain ⟨picked, hpicked, hproject⟩ := picksShown.project_of_inRange hindices
  have hcarried : ∀ update ∈ carried updates indices, update.1 < (ofList picked).length := by
    rw [length_ofList, length_of_picked hpicked]
    exact carried_inRange updates indices
  refine ⟨ofList (written picked (carried updates indices)), ?_, ?_⟩
  · rw [overwrite_of_inRange hupdates]
    refine project_of_picked (inRange_iff.mp (by rwa [length_ofList_written])) ?_
    rw [toList_ofList]
    exact picked_written (by rwa [length_toList]) hpicked updates
  · rw [hproject]
    exact overwrite_of_inRange hcarried

/-! ## Both rebuildings -/

/-- Overwriting by a batch commutes with prepending, for any batch, and with projecting, for
positions of the row; two prepends are one. -/
structure Reindexes (row : Row α) (updates : List (Nat × α)) : Prop where
  overwrite_prepended (fields : List α) :
    (row.prepend fields).overwrite (shifted fields.length updates) =
      match row.overwrite updates with
      | .ok next => .ok (next.prepend fields)
      | .error broken => .error (broken.shifted fields.length)
  prepend_prepended (first second : List α) :
    (row.prepend second).prepend first = row.prepend (first ++ second)
  project_overwritten {indices : List Nat} (hupdates : ∀ update ∈ updates, update.1 < row.length)
      (hindices : ∀ index ∈ indices, index < row.length) :
    ∃ made, (do (← row.overwrite updates).project indices) = .ok made ∧
      (do (← row.project indices).overwrite (carried updates indices)) = .ok made

/-- Updates can be made before or after the row is rebuilt, under the positions that the fields
have then. -/
theorem overwrites_reindexed (row : Row α) (updates : List (Nat × α)) : row.Reindexes updates where
  overwrite_prepended fields := overwrite_shifted row fields updates
  prepend_prepended := prepend_prepend row
  project_overwritten := project_overwritten

/-- A field written twice is asked for twice, and one that is written once is not asked for. A
position past the end is as far past the end behind two prepended fields. -/
theorem overwrites_reindexed_asked_twice :
    carried [(2, 7), (0, 5), (2, 8)] [2, 1, 2] = [(0, 8), (2, 8)] ∧
    (∃ made, (do (← (ofList [1, 2, 3]).overwrite [(2, 7), (0, 5), (2, 8)]).project [2, 1, 2]) =
        .ok made ∧
      (do (← (ofList [1, 2, 3]).project [2, 1, 2]).overwrite [(0, 8), (2, 8)]) = .ok made) ∧
    ((ofList [1, 2, 3]).prepend [8, 9]).overwrite [(4, 7), (5, 6)] =
      .error (.outOfBounds .overwrite 5 5) := by
  have htwice := overwrites_reindexed (ofList [1, 2, 3]) [(2, 7), (0, 5), (2, 8)]
  have hpast := overwrites_reindexed (ofList [1, 2, 3]) [(2, 7), (3, 6)]
  refine ⟨rfl, ?_, ?_⟩
  · exact htwice.project_overwritten (by decide) (by decide)
  · exact hpast.overwrite_prepended [8, 9]

end Row

end PositionalRecord
