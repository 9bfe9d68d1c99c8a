import PositionalRecord.Row.Traverse
import PositionalRecord.Proofs.Overwrites

/-!
# Laws of rows

Each operation on a row is said through the list of its fields: which list the new row holds, and
at which position of which batch or index list the operation refuses to go on.
-/

namespace PositionalRecord.Row

variable {α β : Type}

/-! ## One position -/

@[simp]
theorem length_ofList (fields : List α) : (ofList fields).length = fields.length := rfl

@[simp]
theorem length_map (f : α → β) (row : Row α) : (row.map f).length = row.length := by
  rw [← length_toList, toList_map, List.length_map, length_toList]

@[simp]
theorem length_prepend (row : Row α) (fields : List α) :
    (row.prepend fields).length = fields.length + row.length := by
  rw [← length_toList, toList_prepend, List.length_append, length_toList]

/-- Reading a row is reading its list, and a position past the end is reported as it was asked
for. -/
theorem get_eq (row : Row α) (index : Nat) :
    row.get index =
      match row.toList[index]? with
      | some field => .ok field
      | none => .error (.outOfBounds .get index row.length) := by
  have hslot : row.slots[index]? = row.toList[index]? := Array.getElem?_toList.symm
  unfold get
  cases hfield : row.toList[index]? with
  | some field => rw [hslot, hfield]
  | none => rw [hslot, hfield]

theorem write_of_lt {row : Row α} {index : Nat} (h : index < row.length) (field : α) :
    row.write (index, field) = .ok (ofList (row.toList.set index field)) := by
  have hslot : index < row.slots.size := h
  unfold write
  rw [dif_pos hslot]
  apply congrArg Except.ok
  apply ext_toList
  rw [toList_ofList, toList, toList, Array.toList_set]

theorem write_of_le {row : Row α} {index : Nat} (h : row.length ≤ index) (field : α) :
    row.write (index, field) = .error (.outOfBounds .overwrite index row.length) :=
  dif_neg (Nat.not_lt_of_le h)

/-! ## The first position past the end -/

/-- `index` is the first of these positions that is not one of `length` fields. -/
def FirstPast (length : Nat) (indices : List Nat) (index : Nat) : Prop :=
  ∃ front back, indices = front ++ index :: back ∧ (∀ earlier ∈ front, earlier < length) ∧
    length ≤ index

theorem firstPast_iff {length : Nat} {indices : List Nat} {index : Nat} :
    FirstPast length indices index ↔ indices.find? (length ≤ ·) = some index := by
  rw [List.find?_eq_some_iff_append]
  constructor
  · rintro ⟨front, back, hindices, hfront, hindex⟩
    exact ⟨decide_eq_true hindex, front, back, hindices, by simpa using hfront⟩
  · rintro ⟨hindex, front, back, hindices, hfront⟩
    exact ⟨front, back, hindices, by simpa using hfront, of_decide_eq_true hindex⟩

theorem inRange_iff {length : Nat} {indices : List Nat} :
    (∀ index ∈ indices, index < length) ↔ indices.find? (length ≤ ·) = none := by
  rw [List.find?_eq_none]
  simp

/-! ## A batch of updates -/

/-- The fields after these updates, made one after the other. An update past the end has no
effect. -/
def written (fields : List α) (updates : List (Nat × α)) : List α :=
  updates.foldl (fun fields update ↦ fields.set update.1 update.2) fields

@[simp]
theorem written_nil (fields : List α) : written fields [] = fields := rfl

@[simp]
theorem written_cons (fields : List α) (update : Nat × α) (rest : List (Nat × α)) :
    written fields (update :: rest) = written (fields.set update.1 update.2) rest := rfl

@[simp]
theorem length_written (fields : List α) (updates : List (Nat × α)) :
    (written fields updates).length = fields.length := by
  induction updates generalizing fields with
  | nil => rfl
  | cons update rest ih => rw [written_cons, ih, List.length_set]

/-- No batch changes how many fields there are. -/
@[simp]
theorem length_ofList_written (row : Row α) (updates : List (Nat × α)) :
    (ofList (written row.toList updates)).length = row.length := by
  rw [length_ofList, length_written, length_toList]

theorem written_map (f : α → β) (fields : List α) (updates : List (Nat × α)) :
    written (fields.map f) (updates.map (Prod.map id f)) = (written fields updates).map f := by
  induction updates generalizing fields with
  | nil => rfl
  | cons update rest ih =>
    rw [List.map_cons, written_cons, written_cons, ← ih, List.map_set]
    rfl

/-- A batch is refused at its first index past the end, in the order of the batch, whatever was
written before; otherwise all its updates are made. -/
theorem overwrite_eq (row : Row α) (updates : List (Nat × α)) :
    row.overwrite updates =
      match (updates.map Prod.fst).find? (row.length ≤ ·) with
      | some index => .error (.outOfBounds .overwrite index row.length)
      | none => .ok (ofList (written row.toList updates)) := by
  induction updates generalizing row with
  | nil => rfl
  | cons update rest ih =>
    obtain ⟨index, field⟩ := update
    have hstep : row.overwrite ((index, field) :: rest) =
        (row.write (index, field)).bind fun next ↦ next.overwrite rest := rfl
    rw [hstep, List.map_cons, List.find?_cons]
    by_cases hindex : index < row.length
    · have hlength : (ofList (row.toList.set index field)).length = row.length := by
        rw [length_ofList, List.length_set, length_toList]
      simp only [write_of_lt hindex, Except.bind, ih, hlength, Nat.not_le_of_lt hindex,
        decide_false, toList_ofList, written_cons]
    · have hpast : row.length ≤ index := Nat.le_of_not_lt hindex
      simp only [write_of_le hpast, Except.bind, hpast, decide_true]

/-- A batch in range is made. -/
theorem overwrite_of_inRange {row : Row α} {updates : List (Nat × α)}
    (h : ∀ update ∈ updates, update.1 < row.length) :
    row.overwrite updates = .ok (ofList (written row.toList updates)) := by
  have hnone : (updates.map Prod.fst).find? (row.length ≤ ·) = none := by
    rw [← inRange_iff, List.forall_mem_map]
    exact h
  rw [overwrite_eq, hnone]

/-- One update within the row replaces one field. -/
theorem overwrite_singleton {row : Row α} {index : Nat} (h : index < row.length) (field : α) :
    row.overwrite [(index, field)] = .ok (ofList (row.toList.set index field)) :=
  overwrite_of_inRange (List.forall_mem_singleton.mpr h)

/-- Overwrites without a repeated key can be overlaid at once or made one after the other. -/
theorem written_entries {overwrites : Overwrites α} (h : overwrites.keys.Nodup)
    (fields : List α) : written fields overwrites.entries = overwrites.overlay fields := by
  obtain ⟨entries⟩ := overwrites
  induction entries generalizing fields with
  | nil => exact (Overwrites.overlay_empty fields).symm
  | cons entry rest ih =>
    obtain ⟨key, value⟩ := entry
    obtain ⟨hkey, hrest⟩ := List.nodup_cons.mp h
    have hfresh : rest.lookup key = none :=
      (Overwrites.find?_eq_none_iff ⟨rest⟩ key).mpr hkey
    rw [written_cons, ih (fields.set key value) hrest]
    apply List.ext_getElem?
    intro index
    rw [Overwrites.getElem?_overlay, Overwrites.getElem?_overlay, List.getElem?_set]
    by_cases hindex : key = index
    · subst hindex
      by_cases hbound : key < fields.length
      · simp [hbound, hfresh, Overwrites.find?]
      · simp [hbound]
    · have hbeq : (index == key) = false := beq_false_of_ne (Ne.symm hindex)
      simp only [if_neg hindex, Overwrites.find?, List.lookup_cons, hbeq]

/-! ## Several positions at once -/

/-- The fields at a list of positions either all exist, or the list has a first position past the
end. -/
theorem picked_or_past (fields : List α) (indices : List Nat) :
    (∃ picked, indices.mapM (fields[·]?) = some picked ∧
        indices.find? (fields.length ≤ ·) = none) ∨
      ∃ index, indices.mapM (fields[·]?) = none ∧
        indices.find? (fields.length ≤ ·) = some index := by
  induction indices with
  | nil => exact .inl ⟨[], rfl, rfl⟩
  | cons first rest ih =>
    by_cases hfirst : first < fields.length
    · have hpast : decide (fields.length ≤ first) = false := decide_eq_false (by omega)
      simp only [List.mapM_cons, List.find?_cons, hpast, List.getElem?_eq_getElem hfirst]
      rcases ih with ⟨picked, hpicked, hnone⟩ | ⟨index, hrefused, hindex⟩
      · exact .inl ⟨fields[first] :: picked, by simp [hpicked], hnone⟩
      · exact .inr ⟨index, by simp [hrefused], hindex⟩
    · have hpast : fields.length ≤ first := Nat.le_of_not_lt hfirst
      refine .inr ⟨first, ?_, ?_⟩
      · simp [List.mapM_cons, List.getElem?_eq_none hpast]
      · simp [hpast]

theorem picked_of_inRange {fields : List α} {indices : List Nat}
    (h : ∀ index ∈ indices, index < fields.length) :
    ∃ picked, indices.mapM (fields[·]?) = some picked := by
  rcases picked_or_past fields indices with ⟨picked, hpicked, -⟩ | ⟨_, -, hpast⟩
  · exact ⟨picked, hpicked⟩
  · rw [inRange_iff.mp h] at hpast
    cases hpast

/-- Picking from mapped fields is mapping what is picked. -/
theorem mapM_getElem?_map (f : α → β) (fields : List α) (indices : List Nat) :
    indices.mapM ((fields.map f)[·]?) = (indices.mapM (fields[·]?)).map (List.map f) := by
  induction indices with
  | nil => rfl
  | cons index rest ih =>
    rw [List.mapM_cons, List.mapM_cons, ih, List.getElem?_map]
    cases fields[index]? with
    | none => rfl
    | some field => cases rest.mapM (fields[·]?) <;> rfl

/-- Picking fields at a list of positions picks one for each position. -/
theorem length_of_picked {fields picked : List α} {indices : List Nat}
    (h : indices.mapM (fields[·]?) = some picked) : picked.length = indices.length := by
  induction indices generalizing picked with
  | nil =>
    obtain rfl : [] = picked := Option.some.inj h
    rfl
  | cons index rest ih =>
    rw [List.mapM_cons] at h
    obtain ⟨field, -, h⟩ := Option.bind_eq_some_iff.mp h
    obtain ⟨others, hothers, h⟩ := Option.bind_eq_some_iff.mp h
    obtain rfl : field :: others = picked := Option.some.inj h
    rw [List.length_cons, List.length_cons, ih hothers]

/-- Each position picks the field there. -/
theorem getElem?_of_picked {fields picked : List α} {indices : List Nat}
    (h : indices.mapM (fields[·]?) = some picked) (position : Nat) :
    picked[position]? = indices[position]?.bind (fields[·]?) := by
  induction indices generalizing picked position with
  | nil =>
    obtain rfl : [] = picked := Option.some.inj h
    rfl
  | cons index rest ih =>
    rw [List.mapM_cons] at h
    obtain ⟨field, hfield, h⟩ := Option.bind_eq_some_iff.mp h
    obtain ⟨others, hothers, h⟩ := Option.bind_eq_some_iff.mp h
    obtain rfl : field :: others = picked := Option.some.inj h
    cases position with
    | zero => exact hfield.symm
    | succ position => exact ih hothers position

/-- All positions in order pick all fields. -/
theorem mapM_range_length (fields : List α) :
    (List.range fields.length).mapM (fields[·]?) = some fields := by
  -- The positions from `front.length` on pick the rest of the list, by induction on that rest.
  have hfrom (front back : List α) (h : fields = front ++ back) :
      (List.range' front.length back.length).mapM (fields[·]?) = some back := by
    induction back generalizing front with
    | nil => rfl
    | cons field rest ih =>
      have hfield : fields[front.length]? = some field := by
        rw [h, List.getElem?_append_right (Nat.le_refl _), Nat.sub_self, List.getElem?_cons_zero]
      have hrest := ih (front ++ [field]) (by rw [h, List.append_cons])
      rw [List.length_append, List.length_singleton] at hrest
      rw [List.length_cons, List.range'_succ, List.mapM_cons, hfield, hrest]
      rfl
  rw [List.range_eq_range']
  exact hfrom [] fields rfl

section Reading

variable {fields : List α} {read : Nat → Except Violation α}

/-- Reading several positions that all exist reads each of them. -/
theorem mapM_read_of_picked
    (hread : ∀ index field, fields[index]? = some field → read index = .ok field)
    {indices : List Nat} {picked : List α} (h : indices.mapM (fields[·]?) = some picked) :
    indices.mapM read = .ok picked := by
  induction indices generalizing picked with
  | nil =>
    obtain rfl : [] = picked := Option.some.inj h
    rfl
  | cons first rest ih =>
    rw [List.mapM_cons] at h
    obtain ⟨field, hfield, h⟩ := Option.bind_eq_some_iff.mp h
    obtain ⟨others, hothers, h⟩ := Option.bind_eq_some_iff.mp h
    obtain rfl : field :: others = picked := Option.some.inj h
    rw [List.mapM_cons, hread first field hfield, ih hothers]
    rfl

/-- Reading several positions stops at the first one past the end. -/
theorem mapM_read_of_past {refusal : Nat → Violation}
    (hread : ∀ index field, fields[index]? = some field → read index = .ok field)
    (hpast : ∀ index, fields.length ≤ index → read index = .error (refusal index))
    {indices : List Nat} {index : Nat} (h : indices.find? (fields.length ≤ ·) = some index) :
    indices.mapM read = .error (refusal index) := by
  induction indices with
  | nil => cases h
  | cons first rest ih =>
    rw [List.mapM_cons]
    by_cases hfirst : first < fields.length
    · rw [List.find?_cons_of_neg (by simpa using hfirst)] at h
      rw [hread first _ (List.getElem?_eq_getElem hfirst), ih h]
      rfl
    · have hend : fields.length ≤ first := Nat.le_of_not_lt hfirst
      rw [List.find?_cons_of_pos (by simpa using hend)] at h
      obtain rfl : first = index := Option.some.inj h
      rw [hpast first hend]
      rfl

end Reading

theorem get_of_some {row : Row α} {index : Nat} {field : α}
    (h : row.toList[index]? = some field) : row.get index = .ok field := by
  rw [get_eq, h]

theorem get_of_past {row : Row α} {index : Nat} (h : row.length ≤ index) :
    row.get index = .error (.outOfBounds .get index row.length) := by
  have hnone : row.toList[index]? = none := by rwa [List.getElem?_eq_none_iff, length_toList]
  rw [get_eq, hnone]

theorem project_of_picked {row : Row α} {indices : List Nat} {picked : List α}
    (hnone : indices.find? (row.length ≤ ·) = none)
    (h : indices.mapM (row.toList[·]?) = some picked) :
    row.project indices = .ok (ofList picked) := by
  unfold project
  rw [Violation.checkIndices_of_none hnone, mapM_read_of_picked (fun _ _ hfield ↦ get_of_some hfield) h]
  rfl

theorem project_of_past {row : Row α} {indices : List Nat} {index : Nat}
    (h : indices.find? (row.length ≤ ·) = some index) :
    row.project indices = .error (.outOfBounds .project index row.length) := by
  unfold project
  rw [Violation.checkIndices_of_some h]
  rfl

end PositionalRecord.Row
