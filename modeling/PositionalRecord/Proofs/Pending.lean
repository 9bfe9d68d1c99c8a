import PositionalRecord.Pending.Basic
import PositionalRecord.Proofs.Rows

/-!
# Laws of pending changes

What pending changes mean is said through the rows of the record that they make. A prepend puts
fields before these rows and a write replaces one of them, wherever the changes keep what was
written: in the buffer, which is reversed, or under the position in the row itself, which later
prepends do not move. Changes are `Sound` for a row if their overwrites can be made on it; making
sound changes gives exactly the rows that reading through them shows.
-/

namespace PositionalRecord.Pending

variable {α : Type}

/-! ## Prepended fields -/

@[simp]
theorem prepended_empty : (empty : Pending α).prepended = 0 := rfl

@[simp]
theorem fields_empty : (empty : Pending α).fields = [] := rfl

@[simp]
theorem length_fields (pending : Pending α) : pending.fields.length = pending.prepended := by
  simp [fields, prepended]

@[simp]
theorem fields_prepend (pending : Pending α) (fields : List α) :
    (pending.prepend fields).fields = fields ++ pending.fields := by
  simp [prepend, Pending.fields]

@[simp]
theorem overwrites_prepend (pending : Pending α) (fields : List α) :
    (pending.prepend fields).overwrites = pending.overwrites := rfl

@[simp]
theorem prepended_prepend (pending : Pending α) (fields : List α) :
    (pending.prepend fields).prepended = fields.length + pending.prepended := by
  rw [← length_fields, fields_prepend, List.length_append, length_fields]

/-- The buffer is read from its end. -/
theorem getElem?_fields (pending : Pending α) {index : Nat} (h : index < pending.buffer.size) :
    pending.fields[index]? = some pending.buffer[pending.buffer.size - 1 - index] := by
  have hlength : index < pending.buffer.toList.length := h
  rw [fields, List.getElem?_reverse hlength, Array.getElem?_toList, Array.length_toList]
  exact Array.getElem?_eq_getElem (mirror_lt h)

/-! ## Writing one field -/

/-- Writing a prepended field replaces it in the buffer. -/
theorem fields_set_of_lt {pending : Pending α} {index : Nat} (h : index < pending.prepended)
    (field : α) : (pending.set index field).fields = pending.fields.set index field := by
  have hbuffer : index < pending.buffer.size := h
  rw [set, dif_pos hbuffer]
  apply List.ext_getElem?
  intro position
  simp only [fields, Array.toList_set]
  by_cases hposition : position < pending.buffer.size
  · rw [List.getElem?_reverse (by simpa using hposition), List.getElem?_set, List.getElem?_set,
      List.getElem?_reverse (by simpa using hposition)]
    simp only [List.length_set, Array.length_toList, List.length_reverse]
    by_cases hsame : index = position
    · simp [hsame, mirror_lt hposition, hposition]
    · have hmirror : pending.buffer.size - 1 - index ≠ pending.buffer.size - 1 - position := by
        omega
      rw [if_neg hmirror, if_neg hsame]
  · rw [List.getElem?_eq_none (by simpa using hposition),
      List.getElem?_eq_none (by simpa using hposition)]

theorem overwrites_set_of_lt {pending : Pending α} {index : Nat} (h : index < pending.prepended)
    (field : α) : (pending.set index field).overwrites = pending.overwrites := by
  have hbuffer : index < pending.buffer.size := h
  rw [set, dif_pos hbuffer]

/-- Writing a field of the row itself is put down under its position there. -/
theorem set_of_le {pending : Pending α} {index : Nat} (h : pending.prepended ≤ index)
    (field : α) :
    pending.set index field =
      { pending with overwrites := pending.overwrites.put (index - pending.prepended) field } := by
  have hbuffer : ¬ index < pending.buffer.size := Nat.not_lt_of_le h
  rw [set, dif_neg hbuffer]
  rfl

@[simp]
theorem prepended_set (pending : Pending α) (index : Nat) (field : α) :
    (pending.set index field).prepended = pending.prepended := by
  by_cases hindex : index < pending.prepended
  · rw [← length_fields, fields_set_of_lt hindex, List.length_set, length_fields]
  · rw [set_of_le (Nat.le_of_not_lt hindex)]
    rfl

/-- No position of the row is put down twice. -/
theorem nodup_keys_set {pending : Pending α} (h : pending.overwrites.keys.Nodup) (index : Nat)
    (field : α) : (pending.set index field).overwrites.keys.Nodup := by
  by_cases hindex : index < pending.prepended
  · rwa [overwrites_set_of_lt hindex]
  · rw [set_of_le (Nat.le_of_not_lt hindex)]
    exact Overwrites.nodup_keys_put h _ _

/-! ## Emptiness -/

theorem isEmpty_eq (pending : Pending α) :
    pending.isEmpty = (pending.overwrites.isEmpty && pending.fields.isEmpty) := by
  unfold isEmpty fields
  rw [List.isEmpty_reverse, Array.isEmpty_toList]

/-- Prepending nothing is no change. -/
@[simp]
theorem isEmpty_prepend (pending : Pending α) (fields : List α) :
    (pending.prepend fields).isEmpty = (pending.isEmpty && fields.isEmpty) := by
  rw [isEmpty_eq, isEmpty_eq, overwrites_prepend, fields_prepend]
  cases fields with
  | nil => rw [List.nil_append, List.isEmpty_nil, Bool.and_true]
  | cons field rest => rw [List.cons_append, List.isEmpty_cons, List.isEmpty_cons, Bool.and_false,
      Bool.and_false]

/-- A write is a change, wherever it is kept. -/
@[simp]
theorem isEmpty_set (pending : Pending α) (index : Nat) (field : α) :
    (pending.set index field).isEmpty = false := by
  rw [isEmpty_eq]
  by_cases hindex : index < pending.prepended
  · have hfields : pending.fields ≠ [] := by
      intro hnil
      rw [← length_fields, hnil] at hindex
      exact Nat.not_lt_zero index hindex
    rw [fields_set_of_lt hindex]
    simp [hfields]
  · rw [set_of_le (Nat.le_of_not_lt hindex), Overwrites.isEmpty_put, Bool.false_and]

/-! ## The rows in the making -/

@[simp]
theorem length_rows (pending : Pending α) (row : Row α) :
    (pending.rows row).length = pending.prepended + row.length := by
  unfold rows
  rw [List.length_append, length_fields, Overwrites.length_overlay, Row.length_toList]

@[simp]
theorem rows_empty (row : Row α) : (empty : Pending α).rows row = row.toList := by
  unfold rows
  rw [fields_empty, List.nil_append]
  exact Overwrites.overlay_empty row.toList

/-- Prepended fields come first. -/
@[simp]
theorem rows_prepend (pending : Pending α) (fields : List α) (row : Row α) :
    (pending.prepend fields).rows row = fields ++ pending.rows row := by
  unfold rows
  rw [fields_prepend, overwrites_prepend, List.append_assoc]

/-- A write replaces one row, whether that row was prepended or not. -/
@[simp]
theorem rows_set (pending : Pending α) (index : Nat) (field : α) (row : Row α) :
    (pending.set index field).rows row = (pending.rows row).set index field := by
  by_cases hindex : index < pending.prepended
  · have hfields : index < pending.fields.length := by rwa [length_fields]
    rw [rows, rows, fields_set_of_lt hindex, overwrites_set_of_lt hindex,
      List.set_append_left _ _ hfields]
  · have hle : pending.prepended ≤ index := Nat.le_of_not_lt hindex
    have hfields : pending.fields.length ≤ index := by rwa [length_fields]
    rw [set_of_le hle, rows, rows, List.set_append_right _ _ hfields, length_fields,
      ← Overwrites.overlay_put]
    rfl

/-- A clean record shows the fields of its row. -/
theorem rows_of_isEmpty {pending : Pending α} (h : pending.isEmpty = true) (row : Row α) :
    pending.rows row = row.toList := by
  obtain ⟨⟨entries⟩, buffer⟩ := pending
  obtain ⟨hentries, hbuffer⟩ := Bool.and_eq_true_iff.mp h
  obtain rfl : entries = [] := List.isEmpty_iff.mp hentries
  obtain rfl : buffer = #[] := Array.isEmpty_iff.mp hbuffer
  exact rows_empty row

/-! ## Reading -/

/-- Reading past the prepended fields looks for an overwrite and then in the row itself. -/
theorem get_of_le {pending : Pending α} {index : Nat} (h : pending.prepended ≤ index)
    (row : Row α) :
    pending.get row index =
      match pending.overwrites.find? (index - pending.prepended) with
      | some field => .ok field
      | none => row.get (index - pending.prepended) :=
  dif_neg (Nat.not_lt_of_le h)

/-- Reading through the changes finds the row in the making. A position past the end falls
through to the row itself, under its position there, unless an overwrite stands there. -/
theorem get_eq (pending : Pending α) (row : Row α) (index : Nat) :
    pending.get row index =
      match (pending.rows row)[index]? with
      | some field => .ok field
      | none =>
        match pending.overwrites.find? (index - pending.prepended) with
        | some field => .ok field
        | none => .error (.outOfBounds .get (index - pending.prepended) row.length) := by
  by_cases hindex : index < pending.buffer.size
  · have hfields : index < pending.fields.length := by rwa [length_fields]
    rw [get, dif_pos hindex, rows, List.getElem?_append_left hfields, getElem?_fields _ hindex]
  · have hle : pending.prepended ≤ index := Nat.le_of_not_lt hindex
    have hfields : pending.fields.length ≤ index := by rwa [length_fields]
    rw [get_of_le hle, Row.get_eq, rows, List.getElem?_append_right hfields, length_fields,
      Overwrites.getElem?_overlay]
    cases pending.overwrites.find? (index - pending.prepended) <;>
      cases row.toList[index - pending.prepended]? <;> rfl

/-- Within the record that the changes make, reading always answers. -/
theorem get_of_some {pending : Pending α} {row : Row α} {index : Nat} {field : α}
    (h : (pending.rows row)[index]? = some field) : pending.get row index = .ok field := by
  rw [get_eq, h]

/-- Past the end, overwrites in range hand the read on to the row, which knows the position and
the length of its own fields only. -/
theorem get_of_past {pending : Pending α} {row : Row α}
    (hkeys : ∀ key ∈ pending.overwrites.keys, key < row.length) {index : Nat}
    (hindex : pending.prepended + row.length ≤ index) :
    pending.get row index =
      .error (.outOfBounds .get (index - pending.prepended) row.length) := by
  have hrows : (pending.rows row)[index]? = none := by
    rw [List.getElem?_eq_none_iff, length_rows]
    exact hindex
  have hfind : pending.overwrites.find? (index - pending.prepended) = none := by
    rw [Overwrites.find?_eq_none_iff]
    intro hkey
    have := hkeys _ hkey
    omega
  rw [get_eq, hrows, hfind]

/-! ## Soundness -/

/-- The overwrites can be made on `row`: no position is overwritten twice, and none is past the
end of `row`. -/
structure Sound (pending : Pending α) (row : Row α) : Prop where
  nodup_keys : pending.overwrites.keys.Nodup
  key_lt : ∀ key ∈ pending.overwrites.keys, key < row.length

theorem sound_empty (row : Row α) : (empty : Pending α).Sound row where
  nodup_keys := List.nodup_nil
  key_lt _ hkey := nomatch hkey

theorem Sound.prepend {pending : Pending α} {row : Row α} (h : pending.Sound row)
    (fields : List α) : (pending.prepend fields).Sound row where
  nodup_keys := h.nodup_keys
  key_lt := h.key_lt

/-- The bound is checked against the whole record when a field is written; what is kept is a
position in the row, which stays good whatever is prepended later. -/
theorem Sound.set {pending : Pending α} {row : Row α} (h : pending.Sound row) {index : Nat}
    (hindex : index < pending.prepended + row.length) (field : α) :
    (pending.set index field).Sound row where
  nodup_keys := nodup_keys_set h.nodup_keys index field
  key_lt key hkey := by
    by_cases hfields : index < pending.prepended
    · rw [overwrites_set_of_lt hfields] at hkey
      exact h.key_lt key hkey
    · rw [set_of_le (Nat.le_of_not_lt hfields)] at hkey
      rcases (Overwrites.mem_keys_put _ _ _ _).mp hkey with rfl | hold
      · omega
      · exact h.key_lt key hold

/-- Sound changes overwrite no more fields than the row has. -/
theorem Sound.length_overwrites_le {pending : Pending α} {row : Row α} (h : pending.Sound row) :
    pending.overwrites.length ≤ row.length := by
  have hsubset : pending.overwrites.keys ⊆ List.range row.length := by
    intro key hkey
    exact List.mem_range.mpr (h.key_lt key hkey)
  have hlength := List.Nodup.length_le_of_subset h.nodup_keys hsubset
  rwa [Overwrites.length_keys, List.length_range] at hlength

/-! ## Making the changes -/

/-- Making the changes is refused at the first written position past the end of the row, and
otherwise gives the rows that reading shows. -/
theorem apply_eq {pending : Pending α} (h : pending.overwrites.keys.Nodup) (row : Row α) :
    pending.apply row =
      match pending.overwrites.keys.find? (row.length ≤ ·) with
      | some key => .error (.outOfBounds .overwrite key row.length)
      | none => .ok (.ofList (pending.rows row)) := by
  have hkeys : pending.overwrites.entries.map Prod.fst = pending.overwrites.keys := rfl
  rw [apply, Row.overwrite_eq, hkeys]
  cases pending.overwrites.keys.find? (row.length ≤ ·) with
  | some key => rfl
  | none =>
    apply congrArg Except.ok
    apply Row.ext_toList
    rw [Row.toList_prepend, Row.toList_ofList, Row.toList_ofList, Row.written_entries h, rows]

theorem Sound.apply_eq {pending : Pending α} {row : Row α} (h : pending.Sound row) :
    pending.apply row = .ok (.ofList (pending.rows row)) := by
  rw [Pending.apply_eq h.nodup_keys, Row.inRange_iff.mp h.key_lt]

/-- Changes that go through without a repeated position are sound. -/
theorem sound_of_apply {pending : Pending α} {row made : Row α}
    (hnodup : pending.overwrites.keys.Nodup) (h : pending.apply row = .ok made) :
    pending.Sound row where
  nodup_keys := hnodup
  key_lt := by
    rw [Pending.apply_eq hnodup] at h
    cases hfind : pending.overwrites.keys.find? (row.length ≤ ·) with
    | some key =>
      rw [hfind] at h
      cases h
    | none => exact Row.inRange_iff.mpr hfind

end PositionalRecord.Pending
