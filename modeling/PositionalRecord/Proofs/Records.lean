import PositionalRecord.Record.Traverse
import PositionalRecord.Proofs.Pending
import PositionalRecord.Proofs.Runs

/-!
# Laws of records

An operation on a record is said through the list of its current fields, so that nothing depends
on where the changes keep them. A record is `Sound` if the changes pending on it can be made; then
making them is never refused, and every traversal is the traversal of the row of current fields,
after one report if the record is dirty.
-/

namespace PositionalRecord.Record

variable {α β : Type}

/-! ## Current fields -/

@[simp]
theorem toList_ofRow (row : Row α) : (ofRow row).toList = row.toList := Pending.rows_empty row

@[simp]
theorem toList_ofList (fields : List α) : (ofList fields).toList = fields :=
  toList_ofRow (.ofList fields)

@[simp]
theorem length_toList (record : Record α) : record.toList.length = record.length := by
  unfold toList length
  rw [Pending.length_rows, Nat.add_comm]

@[simp]
theorem length_ofList (fields : List α) : (ofList fields).length = fields.length := rfl

@[simp]
theorem toList_prepend (record : Record α) (fields : List α) :
    (record.prepend fields).toList = fields ++ record.toList :=
  Pending.rows_prepend record.pending fields record.row

/-- A record is empty exactly when it shows no field. -/
theorem isEmpty_eq (record : Record α) : record.isEmpty = record.toList.isEmpty := by
  unfold isEmpty
  rw [← length_toList]
  cases record.toList <;> rfl

/-! ## Dirtiness -/

@[simp]
theorem isDirty_ofRow (row : Row α) : (ofRow row).isDirty = false := rfl

/-- Prepending nothing leaves a clean record clean. -/
@[simp]
theorem isDirty_prepend (record : Record α) (fields : List α) :
    (record.prepend fields).isDirty = (record.isDirty || !fields.isEmpty) := by
  unfold isDirty prepend
  rw [Pending.isEmpty_prepend, Bool.not_and]

/-- Nothing is pending on a clean record: its row holds the current fields. -/
theorem row_of_clean {record : Record α} (h : record.isDirty = false) :
    record.row = .ofList record.toList := by
  have hempty : record.pending.isEmpty = true := by simpa [isDirty] using h
  unfold toList
  rw [Pending.rows_of_isEmpty hempty, Row.ofList_toList]

/-! ## Access by position -/

theorem get_of_some {record : Record α} {index : Nat} {field : α}
    (h : record.toList[index]? = some field) : record.get index = .ok field := by
  have hindex : index < record.length := by
    rw [← length_toList]
    exact (List.getElem?_eq_some_iff.mp h).1
  unfold get
  rw [if_pos hindex]
  exact Pending.get_of_some h

theorem get_of_le {record : Record α} {index : Nat} (h : record.length ≤ index) :
    record.get index = .error (.outOfBounds .get index record.length) :=
  if_neg (Nat.not_lt_of_le h)

theorem get_eq_ok_iff {record : Record α} {index : Nat} {field : α} :
    record.get index = .ok field ↔ record.toList[index]? = some field := by
  refine ⟨fun h ↦ ?_, get_of_some⟩
  cases hfound : record.toList[index]? with
  | none =>
    have hpast : record.length ≤ index := by
      rwa [List.getElem?_eq_none_iff, length_toList] at hfound
    rw [get_of_le hpast] at h
    cases h
  | some found =>
    rw [get_of_some hfound] at h
    cases h
    rfl

/-- A write within the record replaces one field and leaves a change pending. -/
theorem set_of_lt {record : Record α} {index : Nat} (h : index < record.length) (field : α) :
    ∃ changed, record.set index field = .ok changed ∧
      changed.row = record.row ∧ changed.pending = record.pending.set index field ∧
      changed.toList = record.toList.set index field ∧ changed.isDirty = true := by
  refine ⟨{ record with pending := record.pending.set index field }, if_pos h, rfl, rfl, ?_, ?_⟩
  · exact Pending.rows_set record.pending index field record.row
  · unfold isDirty
    rw [Pending.isEmpty_set, Bool.not_false]

theorem set_of_le {record : Record α} {index : Nat} (h : record.length ≤ index) (field : α) :
    record.set index field = .error (.outOfBounds .set index record.length) :=
  if_neg (Nat.not_lt_of_le h)

/-- Reading the fields one after the other finds all of them. -/
theorem scan_eq (record : Record α) : record.scan = .ok record.toList := by
  unfold scan
  rw [← length_toList]
  exact Row.mapM_read_of_picked (fun _ _ hfield ↦ Pending.get_of_some hfield)
    (Row.mapM_range_length record.toList)

/-- A projection on positions of the record picks the current fields there, whether the record is
dirty or not. -/
theorem project_of_picked {record : Record α} {indices : List Nat} {picked : List α}
    (hnone : indices.find? (record.length ≤ ·) = none)
    (h : indices.mapM (record.toList[·]?) = some picked) :
    record.project indices = .ok (ofList picked) := by
  cases hdirty : record.isDirty with
  | true =>
    rw [project, if_pos hdirty, Row.mapM_read_of_picked (fun _ _ hfield ↦ get_of_some hfield) h]
    rfl
  | false =>
    have hrow := row_of_clean hdirty
    have hlength : record.row.length = record.length := by
      rw [hrow, Row.length_ofList, length_toList]
    rw [← hlength] at hnone
    rw [← Row.toList_ofList record.toList, ← hrow] at h
    rw [project, hdirty, if_neg Bool.false_ne_true, Row.project_of_picked hnone h]
    rfl

/-- A projection is refused at the first position past the end. A dirty record is read field by
field, so the refusal is that of a read. -/
theorem project_of_past {record : Record α} {indices : List Nat} {index : Nat}
    (h : indices.find? (record.length ≤ ·) = some index) :
    record.project indices =
      .error (.outOfBounds (if record.isDirty then .get else .project) index record.length) := by
  cases hdirty : record.isDirty with
  | true =>
    rw [← length_toList] at h
    rw [project, if_pos hdirty,
      Row.mapM_read_of_past (fun _ _ hfield ↦ get_of_some hfield)
        (fun _ hpast ↦ get_of_le (by rwa [length_toList] at hpast)) h]
    rfl
  | false =>
    have hlength : record.row.length = record.length := by
      rw [row_of_clean hdirty, Row.length_ofList, length_toList]
    rw [← hlength] at h
    rw [project, hdirty, if_neg Bool.false_ne_true, Row.project_of_past h, hlength]
    rfl

/-! ## Soundness -/

/-- The changes pending on the record can be made. -/
def Sound (record : Record α) : Prop := record.pending.Sound record.row

theorem sound_ofRow (row : Row α) : (ofRow row).Sound := Pending.sound_empty row

theorem sound_ofList (fields : List α) : (ofList fields).Sound := sound_ofRow (.ofList fields)

theorem Sound.prepend {record : Record α} (h : record.Sound) (fields : List α) :
    (record.prepend fields).Sound :=
  Pending.Sound.prepend h fields

theorem Sound.set {record changed : Record α} (h : record.Sound) {index : Nat} {field : α}
    (hset : record.set index field = .ok changed) : changed.Sound := by
  by_cases hindex : index < record.length
  · obtain ⟨_, hchanged, hrow, hpending, -, -⟩ := set_of_lt hindex field
    obtain rfl := Except.ok.inj (hchanged.symm.trans hset)
    rw [Sound, hrow, hpending]
    exact Pending.Sound.set h (by rwa [length, Nat.add_comm] at hindex) field
  · rw [set_of_le (Nat.le_of_not_lt hindex)] at hset
    cases hset

/-! ## Making the changes -/

/-- The journal once it is reported that the changes are about to be made; nothing is reported for
a clean record. -/
def reported {ν σ : Type} (record : Record α) (journal : Journal ν σ) : Journal ν σ :=
  if record.isDirty then
    { journal with log := journal.log.push (record.pending.receipt record.row) }
  else journal

variable {ν σ : Type}

theorem reported_trace (record : Record α) (journal : Journal ν σ) :
    (record.reported journal).trace = journal.trace := by
  unfold reported
  split <;> rfl

theorem reported_world (record : Record α) (journal : Journal ν σ) :
    (record.reported journal).world = journal.world := by
  unfold reported
  split <;> rfl

theorem reported_log (record : Record α) (journal : Journal ν σ) :
    (record.reported journal).log =
      if record.isDirty then journal.log.push (record.pending.receipt record.row)
      else journal.log := by
  unfold reported
  split <;> rfl

/-- Making the changes in a run is making them after the report. -/
theorem commit_eq_toRow (record : Record α) (journal : Journal ν σ) :
    record.commit journal = Run.ofExcept record.toRow (record.reported journal) := by
  cases hdirty : record.isDirty with
  | true =>
    rw [commit, if_pos hdirty, toRow, if_pos hdirty, reported, if_pos hdirty]
    rfl
  | false =>
    rw [commit, toRow, reported, hdirty]
    rfl

/-- Making the changes of a sound record is never refused and gives the row of its current
fields. -/
theorem Sound.toRow_eq {record : Record α} (h : record.Sound) :
    record.toRow = .ok (.ofList record.toList) := by
  cases hdirty : record.isDirty with
  | true => rw [toRow, if_pos hdirty, Pending.Sound.apply_eq h, toList]
  | false => rw [toRow, hdirty, if_neg Bool.false_ne_true, ← row_of_clean hdirty]

theorem Sound.commit_eq {record : Record α} (h : record.Sound) (journal : Journal ν σ) :
    record.commit journal = .ok (.ofList record.toList) (record.reported journal) := by
  rw [commit_eq_toRow, h.toRow_eq]
  rfl

theorem Sound.settle_eq {record : Record α} (h : record.Sound) (journal : Journal ν σ) :
    record.settle journal = .ok (.ofList record.toList) (record.reported journal) :=
  Run.map_ok (h.commit_eq journal) ofRow

/-- A traversal of a sound record is the traversal of its current fields. -/
theorem Sound.mapM_eq {record : Record α} (h : record.Sound) (f : α → Run ν σ β)
    (journal : Journal ν σ) :
    record.mapM f journal =
      (ofRow <$> (Row.ofList record.toList).mapM f) (record.reported journal) := by
  rw [mapM, Run.bind_ok (h.commit_eq journal)]
  rfl

theorem Sound.traverse_eq {record : Record α} (h : record.Sound) {F : Type → Type} {ρ : Type}
    [Effect F ρ] (f : α → Run ν σ (F β)) (journal : Journal ν σ) :
    record.traverse f journal =
      (Row.ofList record.toList).traverse f (record.reported journal) := by
  rw [traverse, Run.bind_ok (h.commit_eq journal)]

/-- Mapping a pure function is mapping the current fields. -/
theorem Sound.mapM_pure_eq {record : Record α} (h : record.Sound) (f : α → β)
    (journal : Journal ν σ) :
    record.mapM (fun field ↦ pure (f field)) journal =
      .ok (.ofList (record.toList.map f)) (record.reported journal) := by
  have hfields : record.toList.mapM (fun field ↦ (pure (f field) : Run ν σ β)) =
      pure (record.toList.map f) := List.mapM_pure
  rw [h.mapM_eq, Row.mapM, Row.toList_ofList, hfields]
  rfl

end PositionalRecord.Record
