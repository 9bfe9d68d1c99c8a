import PositionalRecord.Proofs.Pending

/-!
# Deferred changes

A sequence of prepends and writes can be made on a row one after the other, or be collected and
made in one go. Collecting checks nothing. If every write names a position that the record has at
that moment, both ways give the same row. Otherwise making the collected changes is refused at the
first position past the end of the row that was ever put down, whatever came after it. Until the
changes are made, they can be read through, which shows the row that they make.
-/

namespace PositionalRecord

variable {α : Type}

/-- One change of a row: fields to be prepended, or a field to be written at a position of the
record as it is then. -/
inductive Change (α : Type)
  | prepend (fields : List α)
  | set (index : Nat) (field : α)

namespace Change

/-! ## Two ways to change a row -/

/-- Makes a change at once. -/
def make (row : Row α) : Change α → Except Violation (Row α)
  | .prepend fields => .ok (row.prepend fields)
  | .set index field => row.overwrite [(index, field)]

/-- Makes all changes at once, in order. -/
def makeAll (changes : List (Change α)) (row : Row α) : Except Violation (Row α) :=
  changes.foldlM make row

/-- Adds a change to the pending ones. -/
def defer (pending : Pending α) : Change α → Pending α
  | .prepend fields => pending.prepend fields
  | .set index field => pending.set index field

/-- Collects all changes, in order. -/
def deferAll (changes : List (Change α)) : Pending α := changes.foldl defer .empty

/-- Every write names a position of the record at that moment, which starts with `length`
fields. -/
def InRange : List (Change α) → Nat → Prop
  | [], _ => True
  | .prepend fields :: rest, length => InRange rest (fields.length + length)
  | .set index _ :: rest, length => index < length ∧ InRange rest length

/-- The positions in the row itself that the changes write, in order. A position in the row is
counted from the end of what is prepended by then; a write before that end is none in the row. -/
def writtenKeys : List (Change α) → Nat → List Nat
  | [], _ => []
  | .prepend fields :: rest, prepended => writtenKeys rest (fields.length + prepended)
  | .set index _ :: rest, prepended =>
    if index < prepended then writtenKeys rest prepended
    else (index - prepended) :: writtenKeys rest prepended

/-- Positions of the record are in range exactly if the positions in the row are. -/
theorem inRange_iff (changes : List (Change α)) (prepended length : Nat) :
    InRange changes (prepended + length) ↔
      (writtenKeys changes prepended).find? (length ≤ ·) = none := by
  induction changes generalizing prepended with
  | nil => exact iff_of_true trivial rfl
  | cons change rest ih =>
    cases change with
    | prepend fields => rw [InRange, writtenKeys, ← Nat.add_assoc, ih]
    | set index field =>
      rw [InRange, writtenKeys, ih]
      by_cases hindex : index < prepended
      · have hlength : index < prepended + length := Nat.lt_add_right length hindex
        rw [if_pos hindex, and_iff_right hlength]
      · rw [if_neg hindex, List.find?_cons]
        by_cases hkey : length ≤ index - prepended
        · simp only [hkey, decide_true, reduceCtorEq, iff_false, not_and]
          intro hlength
          omega
        · have hlength : index < prepended + length := by omega
          simp only [hkey, decide_false, hlength, true_and]

/-! ## Collecting -/

/-- Adding a change to pending ones writes at most one key, after all older ones. -/
theorem find?_keys_defer (pending : Pending α) (change : Change α) (rest : List (Change α))
    (wanted : Nat → Bool) :
    ((defer pending change).overwrites.keys ++
        writtenKeys rest (defer pending change).prepended).find? wanted =
      (pending.overwrites.keys ++ writtenKeys (change :: rest) pending.prepended).find? wanted := by
  cases change with
  | prepend fields =>
    rw [defer, Pending.overwrites_prepend, Pending.prepended_prepend, writtenKeys]
  | set index field =>
    rw [defer, Pending.prepended_set, writtenKeys]
    by_cases hindex : index < pending.prepended
    · rw [if_pos hindex, Pending.overwrites_set_of_lt hindex]
    · rw [if_neg hindex, Pending.set_of_le (Nat.le_of_not_lt hindex), List.find?_append,
        Overwrites.find?_keys_put, ← List.find?_append, List.append_assoc, List.singleton_append]

/-- The first key that all changes write is the first one in the order of writing. -/
theorem find?_keys_foldl (changes : List (Change α)) (pending : Pending α) (wanted : Nat → Bool) :
    (changes.foldl defer pending).overwrites.keys.find? wanted =
      (pending.overwrites.keys ++ writtenKeys changes pending.prepended).find? wanted := by
  induction changes generalizing pending with
  | nil => rw [writtenKeys, List.append_nil, List.foldl_nil]
  | cons change rest ih => rw [List.foldl_cons, ih, find?_keys_defer]

theorem nodup_keys_foldl (changes : List (Change α)) {pending : Pending α}
    (h : pending.overwrites.keys.Nodup) :
    (changes.foldl defer pending).overwrites.keys.Nodup := by
  induction changes generalizing pending with
  | nil => exact h
  | cons change rest ih =>
    apply ih
    cases change with
    | prepend fields => exact h
    | set index field => exact Pending.nodup_keys_set h index field

/-! ## Both ways agree -/

theorem make_prepend_rows (pending : Pending α) (row : Row α) (fields : List α) :
    make (.ofList (pending.rows row)) (.prepend fields) =
      .ok (.ofList ((pending.prepend fields).rows row)) := by
  apply congrArg Except.ok
  apply Row.ext_toList
  rw [Row.toList_prepend, Row.toList_ofList, Row.toList_ofList, Pending.rows_prepend]

theorem make_set_rows {pending : Pending α} {row : Row α} {index : Nat}
    (h : index < pending.prepended + row.length) (field : α) :
    make (.ofList (pending.rows row)) (.set index field) =
      .ok (.ofList ((pending.set index field).rows row)) := by
  have hindex : index < (Row.ofList (pending.rows row)).length := by
    rwa [Row.length_ofList, Pending.length_rows]
  rw [make, Row.overwrite_singleton hindex, Row.toList_ofList, Pending.rows_set]

/-- Changes in range, made at once on the rows that pending changes show, go through and give the
rows that the pending changes show with them. -/
theorem makeAll_rows (changes : List (Change α)) {pending : Pending α} {row : Row α}
    (h : InRange changes (pending.prepended + row.length)) :
    makeAll changes (.ofList (pending.rows row)) =
      .ok (.ofList ((changes.foldl defer pending).rows row)) := by
  induction changes generalizing pending with
  | nil => rfl
  | cons change rest ih =>
    cases change with
    | prepend fields =>
      have hrest : InRange rest ((pending.prepend fields).prepended + row.length) := by
        rw [Pending.prepended_prepend, Nat.add_assoc]
        exact h
      rw [makeAll, List.foldlM_cons, make_prepend_rows]
      exact ih hrest
    | set index field =>
      obtain ⟨hindex, hrest⟩ := h
      rw [makeAll, List.foldlM_cons, make_set_rows hindex]
      exact ih (by rwa [Pending.prepended_set])

/-- Making the collected changes is refused at the first key past the end of the row that was
written, and otherwise gives the rows that the collected changes show. -/
theorem apply_deferAll (changes : List (Change α)) (row : Row α) :
    (deferAll changes).apply row =
      match (writtenKeys changes 0).find? (row.length ≤ ·) with
      | some key => .error (.outOfBounds .overwrite key row.length)
      | none => .ok (.ofList ((deferAll changes).rows row)) := by
  have hnodup : (deferAll changes).overwrites.keys.Nodup :=
    nodup_keys_foldl changes List.nodup_nil
  have hfind : (deferAll changes).overwrites.keys.find? (row.length ≤ ·) =
      (writtenKeys changes 0).find? (row.length ≤ ·) :=
    find?_keys_foldl changes .empty (row.length ≤ ·)
  have happly := Pending.apply_eq hnodup row
  rw [hfind] at happly
  exact happly

/-- Deferred changes equal eager ones. If every write is in range, making the collected changes
goes through and gives the row of making them one after the other; if one is not, making them is
refused at the first key past the end of the row that was written, whatever came later. -/
theorem deferred_eq_eager (changes : List (Change α)) (row : Row α) :
    (InRange changes row.length →
      ∃ made, makeAll changes row = .ok made ∧ (deferAll changes).apply row = .ok made) ∧
    (¬ InRange changes row.length →
      ∃ key, (writtenKeys changes 0).find? (row.length ≤ ·) = some key ∧
        (deferAll changes).apply row = .error (.outOfBounds .overwrite key row.length)) := by
  have hrange := inRange_iff changes 0 row.length
  rw [Nat.zero_add] at hrange
  constructor
  · intro h
    have hlength : InRange changes ((Pending.empty : Pending α).prepended + row.length) := by
      rwa [Pending.prepended_empty, Nat.zero_add]
    have hmake : makeAll changes row = .ok (.ofList ((deferAll changes).rows row)) := by
      calc
        makeAll changes row = makeAll changes (.ofList (Pending.empty.rows row)) := by
          rw [Pending.rows_empty, Row.ofList_toList]
        _ = .ok (.ofList ((changes.foldl defer .empty).rows row)) := makeAll_rows changes hlength
        _ = .ok (.ofList ((deferAll changes).rows row)) := rfl
    refine ⟨_, hmake, ?_⟩
    rw [apply_deferAll, hrange.mp h]
  · intro h
    cases hfind : (writtenKeys changes 0).find? (row.length ≤ ·) with
    | none => exact absurd (hrange.mpr hfind) h
    | some key =>
      refine ⟨key, rfl, ?_⟩
      rw [apply_deferAll, hfind]

/-- A field written before and after a prepend, and a prepended field written in the same batch;
and a write that is past the end for the prepends at its moment, though not for the later ones. -/
theorem deferred_eq_eager_prepended_between :
    (∃ made, makeAll [.set 2 6, .prepend [4, 5], .set 4 7, .set 0 8] (.ofList [1, 2, 3]) =
        .ok made ∧
      (deferAll [.set 2 6, .prepend [4, 5], .set 4 7, .set 0 8]).apply (.ofList [1, 2, 3]) =
        .ok made) ∧
    ∃ key, (writtenKeys [.prepend [4], .set 4 6, .prepend [5], .set 9 7] 0).find? (3 ≤ ·) =
        some key ∧
      (deferAll [.prepend [4], .set 4 6, .prepend [5], .set 9 7]).apply (.ofList [1, 2, 3]) =
        .error (.outOfBounds .overwrite key 3) := by
  constructor
  · exact (deferred_eq_eager _ _).1 (by simp [InRange])
  · exact (deferred_eq_eager _ (.ofList [1, 2, 3])).2 (by simp [InRange])

/-! ## Reading before the changes are made -/

/-- Reading through collected changes that can be made is reading the row that they make: it has
all prepended fields and those of the row, each of its positions reads as the same field in both,
and past its end a read through the changes is refused. -/
theorem read_as_made (changes : List (Change α)) {row made : Row α}
    (h : (deferAll changes).apply row = .ok made) :
    made.length = (deferAll changes).prepended + row.length ∧
      ∀ index,
        (index < (deferAll changes).prepended + row.length →
          ∃ field, (deferAll changes).get row index = .ok field ∧ made.get index = .ok field) ∧
        ((deferAll changes).prepended + row.length ≤ index →
          (deferAll changes).get row index =
            .error (.outOfBounds .get (index - (deferAll changes).prepended) row.length)) := by
  have hsound : (deferAll changes).Sound row :=
    Pending.sound_of_apply (nodup_keys_foldl changes List.nodup_nil) h
  have hmade : made.toList = (deferAll changes).rows row := by
    rw [hsound.apply_eq] at h
    rw [← Except.ok.inj h, Row.toList_ofList]
  have hlength : made.length = (deferAll changes).prepended + row.length := by
    rw [← Row.length_toList, hmade, Pending.length_rows]
  refine ⟨hlength, fun index ↦ ⟨?_, Pending.get_of_past hsound.key_lt⟩⟩
  intro hindex
  have hbound : index < made.toList.length := by rwa [Row.length_toList, hlength]
  have hfield := List.getElem?_eq_getElem hbound
  refine ⟨made.toList[index], Pending.get_of_some ?_, Row.get_of_some hfield⟩
  rw [← hmade]
  exact hfield

/-- The last of three fields written twice, on both sides of a prepend, and then the first of the
two prepended fields. -/
theorem read_as_made_written_twice :
    (deferAll [.set 2 6, .prepend [4, 5], .set 4 7, .set 0 8]).apply (.ofList [1, 2, 3]) =
        .ok (.ofList [8, 5, 1, 2, 7]) ∧
      (∀ index < 5, ∃ field,
        (deferAll [.set 2 6, .prepend [4, 5], .set 4 7, .set 0 8]).get (.ofList [1, 2, 3]) index =
            .ok field ∧
          (Row.ofList [8, 5, 1, 2, 7]).get index = .ok field) ∧
      (deferAll [.set 2 6, .prepend [4, 5], .set 4 7, .set 0 8]).get (.ofList [1, 2, 3]) 5 =
        .error (.outOfBounds .get 3 3) := by
  have happly :
      (deferAll [.set 2 6, .prepend [4, 5], .set 4 7, .set 0 8]).apply (.ofList [1, 2, 3]) =
        .ok (.ofList [8, 5, 1, 2, 7]) := rfl
  obtain ⟨-, hread⟩ := read_as_made _ happly
  exact ⟨happly, fun index ↦ (hread index).1, (hread 5).2 (Nat.le_refl 5)⟩

end Change

end PositionalRecord
