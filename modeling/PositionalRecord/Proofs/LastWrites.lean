import PositionalRecord.Proofs.Rows
import Mathlib.Data.List.Induction

/-!
# The last write of a position

The updates of a batch are made in place and in order, so a position that is written several times
keeps only its last value. What a batch leaves is known from these last values, position by
position; how the batch was cut into smaller ones, and in which order it wrote different positions,
does not show. A batch that names a position past the end is refused at the first one.
-/

namespace PositionalRecord

variable {α : Type}

/-! ## Last values -/

/-- The value of the last update of `index` in a batch. -/
def lastWrite? (updates : List (Nat × α)) (index : Nat) : Option α :=
  updates.reverse.lookup index

@[simp]
theorem lastWrite?_nil (index : Nat) : lastWrite? ([] : List (Nat × α)) index = none := rfl

/-- Later updates come before earlier ones. -/
theorem lastWrite?_append (first second : List (Nat × α)) (index : Nat) :
    lastWrite? (first ++ second) index = (lastWrite? second index).or (lastWrite? first index) := by
  unfold lastWrite?
  rw [List.reverse_append, List.lookup_append]

theorem lastWrite?_singleton (position : Nat) (value : α) (index : Nat) :
    lastWrite? [(position, value)] index = if index = position then some value else none := by
  rw [lastWrite?, List.reverse_singleton, List.lookup_cons]
  by_cases hindex : index = position
  · simp [hindex]
  · simp [beq_false_of_ne hindex, hindex]

theorem lastWrite?_concat (updates : List (Nat × α)) (position : Nat) (value : α) (index : Nat) :
    lastWrite? (updates ++ [(position, value)]) index =
      if index = position then some value else lastWrite? updates index := by
  rw [lastWrite?_append, lastWrite?_singleton]
  split <;> rfl

theorem lastWrite?_eq_none_iff {updates : List (Nat × α)} {index : Nat} :
    lastWrite? updates index = none ↔ ∀ update ∈ updates, update.1 ≠ index := by
  unfold lastWrite?
  rw [List.lookup_eq_none_iff]
  simp only [List.mem_reverse, bne_iff_ne, ne_comm]

/-- Updates of positions below a bound leave those from the bound on unwritten. -/
theorem lastWrite?_eq_none_of_le {updates : List (Nat × α)} {length index : Nat}
    (h : ∀ update ∈ updates, update.1 < length) (hindex : length ≤ index) :
    lastWrite? updates index = none := by
  rw [lastWrite?_eq_none_iff]
  intro update hupdate
  exact Nat.ne_of_lt (Nat.lt_of_lt_of_le (h update hupdate) hindex)

/-- Batches with the same last values write the same positions, so one is in range if the other
is. -/
theorem inRange_of_lastWrite?_eq {updates other : List (Nat × α)}
    (h : ∀ index, lastWrite? other index = lastWrite? updates index) {length : Nat}
    (hupdates : ∀ update ∈ updates, update.1 < length) : ∀ update ∈ other, update.1 < length := by
  intro update hupdate
  by_contra hpast
  have hunwritten := lastWrite?_eq_none_of_le hupdates (Nat.le_of_not_lt hpast)
  rw [← h, lastWrite?_eq_none_iff] at hunwritten
  exact hunwritten update hupdate rfl

namespace Row

/-! ## What a batch leaves -/

theorem written_append (fields : List α) (first second : List (Nat × α)) :
    written fields (first ++ second) = written (written fields first) second :=
  List.foldl_append

/-- After a batch, a field is the last value written at its position, or what it was. -/
theorem getElem?_written (fields : List α) (updates : List (Nat × α)) (index : Nat) :
    (written fields updates)[index]? =
      fields[index]?.map fun field ↦ (lastWrite? updates index).getD field := by
  -- What has been written so far is a front of the batch, so the induction is from its end.
  induction updates using List.reverseRecOn with
  | nil => simp
  | append_singleton front update ih =>
    obtain ⟨position, value⟩ := update
    rw [written_append, written_cons, written_nil, List.getElem?_set, length_written, ih,
      lastWrite?_concat]
    by_cases hindex : position = index
    · subst hindex
      by_cases hbound : position < fields.length
      · simp [hbound]
      · simp [hbound]
    · rw [if_neg hindex, if_neg (Ne.symm hindex)]

/-- Batches with the same last values leave the same fields. -/
theorem written_eq_of_lastWrite?_eq {updates other : List (Nat × α)}
    (h : ∀ index, lastWrite? other index = lastWrite? updates index) (fields : List α) :
    written fields other = written fields updates := by
  apply List.ext_getElem?
  intro index
  rw [getElem?_written, getElem?_written, h]

/-! ## Batches in range -/

/-- A batch is refused at its first position past the end. -/
theorem overwrite_eq_error_iff {row : Row α} {updates : List (Nat × α)} {broken : Violation} :
    row.overwrite updates = .error broken ↔
      ∃ index, FirstPast row.length (updates.map Prod.fst) index ∧
        broken = .outOfBounds .overwrite index row.length := by
  simp only [firstPast_iff]
  rw [overwrite_eq]
  cases (updates.map Prod.fst).find? (row.length ≤ ·) with
  | none => simp
  | some index => simp [eq_comm]

/-- A batch that is not refused is in range. -/
theorem inRange_of_overwrite_ok {row next : Row α} {updates : List (Nat × α)}
    (h : row.overwrite updates = .ok next) : ∀ update ∈ updates, update.1 < row.length := by
  rw [overwrite_eq] at h
  cases hpast : (updates.map Prod.fst).find? (row.length ≤ ·) with
  | none => rwa [← inRange_iff, List.forall_mem_map] at hpast
  | some index =>
    rw [hpast] at h
    cases h

/-- One update alone is the write of one field. -/
theorem overwrite_single (row : Row α) (update : Nat × α) :
    row.overwrite [update] = row.write update := by
  unfold overwrite
  rw [List.foldlM_cons]
  cases row.write update <;> rfl

theorem overwrite_append (row : Row α) (first second : List (Nat × α)) :
    row.overwrite (first ++ second) = row.overwrite first >>= fun next ↦ next.overwrite second :=
  List.foldlM_append

/-- Overwriting a copy gives what overwriting gives, and the row in hand is the same after it, also
when the batch is refused. -/
theorem overwriteCopy_eq (updates : List (Nat × α)) (row : Row α) :
    overwriteCopy updates row =
      match row.overwrite updates with
      | .ok copy => .ok copy row
      | .error broken => .error broken row := by
  cases updates with
  | nil => rfl
  | cons update rest =>
    change (match row.overwrite (update :: rest) with
      | .ok copy => pure copy
      | .error broken => throw broken : EStateM Violation (Row α) (Row α)) row = _
    cases row.overwrite (update :: rest) with
    | ok copy => rfl
    | error broken => rfl

/-- A row after a batch reads as the last value written, and elsewhere as the row before. -/
theorem get_written {row : Row α} {updates : List (Nat × α)}
    (h : ∀ update ∈ updates, update.1 < row.length) (index : Nat) :
    (ofList (written row.toList updates)).get index =
      match lastWrite? updates index with
      | some field => .ok field
      | none => row.get index := by
  by_cases hindex : index < row.length
  · have hbound : index < row.toList.length := by rwa [length_toList]
    have hold : row.toList[index]? = some row.toList[index] := List.getElem?_eq_getElem hbound
    have hnew : (ofList (written row.toList updates)).toList[index]? =
        some ((lastWrite? updates index).getD row.toList[index]) := by
      rw [toList_ofList, getElem?_written, hold, Option.map_some]
    rw [get_of_some hold, get_of_some hnew]
    cases lastWrite? updates index <;> rfl
  · have hpast : row.length ≤ index := Nat.le_of_not_lt hindex
    have hlength := length_ofList_written row updates
    rw [lastWrite?_eq_none_of_le h hpast, get_of_past hpast, get_of_past (by rwa [hlength]), hlength]

/-! ## Overwriting -/

/-- What overwriting fields of `row` comes to, for any batch: it is refused at the first position
past the end, and otherwise the last write of each position wins. The batch can be made update by
update, or cut in two anywhere; any other batch with the same last writes, such as a reordering
that keeps them, does the same; and a copy can be overwritten instead of the row. -/
structure LastWritesWin (row : Row α) (updates : List (Nat × α)) : Prop where
  refused_iff (broken : Violation) : row.overwrite updates = .error broken ↔
    ∃ index, FirstPast row.length (updates.map Prod.fst) index ∧
      broken = .outOfBounds .overwrite index row.length
  goes_through (h : ∀ update ∈ updates, update.1 < row.length) : ∃ next,
    row.overwrite updates = .ok next ∧ next.length = row.length ∧
      ∀ index, next.get index =
        match lastWrite? updates index with
        | some field => .ok field
        | none => row.get index
  one_by_one : row.overwrite updates =
    updates.foldlM (fun current update ↦ current.overwrite [update]) row
  cut {first second : List (Nat × α)} (h : updates = first ++ second) :
    row.overwrite updates = do (← row.overwrite first).overwrite second
  reordered {other : List (Nat × α)}
      (h : ∀ index, lastWrite? other index = lastWrite? updates index) :
    ((∀ update ∈ updates, update.1 < row.length) →
        row.overwrite other = row.overwrite updates) ∧
      ((∃ broken, row.overwrite updates = .error broken) →
        ∃ broken, row.overwrite other = .error broken)
  copied : overwriteCopy updates row =
    match row.overwrite updates with
    | .ok copy => .ok copy row
    | .error broken => .error broken row

/-- Overwriting is known from the last write of each position. -/
theorem last_writes_win (row : Row α) (updates : List (Nat × α)) :
    row.LastWritesWin updates where
  refused_iff broken := overwrite_eq_error_iff
  goes_through h :=
    ⟨_, overwrite_of_inRange h, length_ofList_written row updates, get_written h⟩
  one_by_one := by
    have hsingle : (fun (current : Row α) update ↦ current.overwrite [update]) = write := by
      funext current update
      exact overwrite_single current update
    rw [hsingle]
    rfl
  cut h := by
    rw [h]
    exact overwrite_append row _ _
  reordered {other} h := by
    constructor
    · intro hrange
      have hother : ∀ update ∈ other, update.1 < row.length := inRange_of_lastWrite?_eq h hrange
      rw [overwrite_of_inRange hother, overwrite_of_inRange hrange, written_eq_of_lastWrite?_eq h]
    · rintro ⟨broken, hbroken⟩
      cases hother : row.overwrite other with
      | error broken => exact ⟨broken, rfl⟩
      | ok next =>
        have hrange : ∀ update ∈ updates, update.1 < row.length :=
          inRange_of_lastWrite?_eq (fun index ↦ (h index).symm) (inRange_of_overwrite_ok hother)
        cases (overwrite_of_inRange hrange).symm.trans hbroken
  copied := overwriteCopy_eq updates row

/-- The last of three fields is written twice around a write of the first, which can come after
both. Of two positions past the end the one that comes first in the batch is reported, and a row
whose copy was to be overwritten stays. -/
theorem last_writes_win_written_twice :
    (∃ next, (ofList [1, 2, 3]).overwrite [(2, 7), (0, 5), (2, 8)] = .ok next ∧
      next.get 1 = .ok 2 ∧ next.get 2 = .ok 8) ∧
    (ofList [1, 2, 3]).overwrite [(2, 7), (2, 8), (0, 5)] =
      (ofList [1, 2, 3]).overwrite [(2, 7), (0, 5), (2, 8)] ∧
    (ofList [1, 2, 3]).overwrite [(1, 4), (9, 6), (7, 5)] =
      .error (.outOfBounds .overwrite 9 3) ∧
    overwriteCopy [(1, 4), (9, 6), (7, 5)] (ofList [1, 2, 3]) =
      .error (.outOfBounds .overwrite 9 3) (ofList [1, 2, 3]) := by
  have htwice := last_writes_win (ofList [1, 2, 3]) [(2, 7), (0, 5), (2, 8)]
  have hpast := last_writes_win (ofList [1, 2, 3]) [(1, 4), (9, 6), (7, 5)]
  have hrange : ∀ update ∈ [(2, 7), (0, 5), (2, 8)], update.1 < (ofList [1, 2, 3]).length := by
    decide
  have hsame (index : Nat) : lastWrite? [(2, 7), (2, 8), (0, 5)] index =
      lastWrite? [(2, 7), (0, 5), (2, 8)] index := by
    rcases index with _ | _ | _ | index <;> rfl
  have hrefused : (ofList [1, 2, 3]).overwrite [(1, 4), (9, 6), (7, 5)] =
      .error (.outOfBounds .overwrite 9 3) :=
    (hpast.refused_iff _).mpr ⟨9, ⟨[1], [7], rfl, by decide, by decide⟩, rfl⟩
  refine ⟨?_, (htwice.reordered hsame).1 hrange, hrefused, ?_⟩
  · obtain ⟨next, hnext, -, hget⟩ := htwice.goes_through hrange
    exact ⟨next, hnext, hget 1, hget 2⟩
  · rw [hpast.copied, hrefused]

end Row

end PositionalRecord
