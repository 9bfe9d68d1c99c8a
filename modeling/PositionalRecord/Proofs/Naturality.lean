import PositionalRecord.Proofs.Reached
import PositionalRecord.Proofs.Edits
import PositionalRecord.Proofs.Synchrony

/-!
# Mapping and operations

Operations move fields about by position and never look at them, so a function can be applied to
all fields before or after: mapping what a run of operations leaves is running the same operations,
with the function applied to every field they bring in, on what was mapped first. A record is
flushed when it is mapped, at different moments of the two runs, but it follows a plain list in
both. One operation commutes with mapping the list; whole runs follow by induction. Holding every
field constant is such a function, and pairing rows commutes with mapping either of them.
-/

namespace PositionalRecord

variable {α β γ δ ε ν σ : Type} {m : Type → Type} [Monad m]

/-! ## Rows -/

namespace Row

/-- An operation on the fields of a row by position. -/
inductive Operation (α : Type)
  | prepend (fields : List α)
  | overwrite (updates : List (Nat × α))
  | project (indices : List Nat)

namespace Operation

def run (row : Row α) : Operation α → Except Violation (Row α)
  | .prepend fields => .ok (row.prepend fields)
  | .overwrite updates => row.overwrite updates
  | .project indices => row.project indices

/-- The operation at the same positions with `f` applied to the fields that it brings in. -/
def map (f : α → β) : Operation α → Operation β
  | .prepend fields => .prepend (fields.map f)
  | .overwrite updates => .overwrite (updates.map (Prod.map id f))
  | .project indices => .project indices

/-- The positions that the operation names are positions of a row of this length. -/
def Fits : Operation α → Nat → Prop
  | .prepend _, _ => True
  | .overwrite updates, length => ∀ update ∈ updates, update.1 < length
  | .project indices, length => ∀ index ∈ indices, index < length

/-- The number of fields after the operation. -/
def lengthAfter : Operation α → Nat → Nat
  | .prepend fields, length => fields.length + length
  | .overwrite _, length => length
  | .project indices, _ => indices.length

/-- Every position that the operations name is one of the row at that moment, which starts with
`length` fields. -/
def InRange : List (Operation α) → Nat → Prop
  | [], _ => True
  | operation :: rest, length =>
    operation.Fits length ∧ InRange rest (operation.lengthAfter length)

end Operation

/-- Makes all operations in order, until one is refused. -/
def runAll (row : Row α) (operations : List (Operation α)) : Except Violation (Row α) :=
  operations.foldlM Operation.run row

/-- An operation that fits goes through. -/
theorem Operation.run_of_fits {operation : Operation α} {row : Row α}
    (h : operation.Fits row.length) :
    ∃ next, operation.run row = .ok next ∧ next.length = operation.lengthAfter row.length := by
  cases operation with
  | prepend fields => exact ⟨_, rfl, length_prepend row fields⟩
  | overwrite updates => exact ⟨_, overwrite_of_inRange h, length_ofList_written row updates⟩
  | project indices =>
    have hindices : ∀ index ∈ indices, index < row.toList.length := by
      rw [length_toList]
      exact h
    obtain ⟨picked, hpicked⟩ := picked_of_inRange hindices
    exact ⟨_, project_of_picked (inRange_iff.mp h) hpicked, length_of_picked hpicked⟩

/-- Operations in range all go through. -/
theorem runAll_of_inRange {operations : List (Operation α)} {row : Row α}
    (h : Operation.InRange operations row.length) : ∃ last, row.runAll operations = .ok last := by
  induction operations generalizing row with
  | nil => exact ⟨row, rfl⟩
  | cons operation rest ih =>
    obtain ⟨hfits, hrest⟩ := h
    obtain ⟨next, hnext, hlength⟩ := Operation.run_of_fits hfits
    rw [← hlength] at hrest
    obtain ⟨last, hlast⟩ := ih hrest
    refine ⟨last, ?_⟩
    rw [runAll, List.foldlM_cons, hnext]
    exact hlast

/-! ### Mapping rows -/

theorem overwrite_map (f : α → β) (row : Row α) (updates : List (Nat × α)) :
    (row.map f).overwrite (updates.map (Prod.map id f)) = Row.map f <$> row.overwrite updates := by
  have hkeys : (updates.map (Prod.map id f)).map Prod.fst = updates.map Prod.fst := by
    rw [List.map_map]
    rfl
  rw [overwrite_eq, overwrite_eq, hkeys, length_map]
  cases (updates.map Prod.fst).find? (row.length ≤ ·) with
  | some index => rfl
  | none =>
    apply congrArg Except.ok
    apply ext_toList
    rw [toList_ofList, toList_map, toList_map, toList_ofList, written_map]

theorem project_map (f : α → β) (row : Row α) (indices : List Nat) :
    (row.map f).project indices = Row.map f <$> row.project indices := by
  rcases picked_or_past row.toList indices with ⟨picked, hpicked, hnone⟩ | ⟨index, -, hpast⟩
  · have hmapped : indices.mapM ((row.map f).toList[·]?) = some (picked.map f) := by
      rw [toList_map, mapM_getElem?_map, hpicked]
      rfl
    rw [length_toList] at hnone
    rw [project_of_picked (by rwa [length_map]) hmapped, project_of_picked hnone hpicked]
    apply congrArg Except.ok
    apply ext_toList
    rw [toList_map, toList_ofList, toList_ofList]
  · rw [length_toList] at hpast
    rw [project_of_past hpast, project_of_past (by rwa [length_map]), length_map]
    rfl

/-- One operation commutes with mapping, and is refused alike. -/
theorem Operation.run_map (f : α → β) (row : Row α) (operation : Operation α) :
    (operation.map f).run (row.map f) = Row.map f <$> operation.run row := by
  cases operation with
  | prepend fields =>
    apply congrArg Except.ok
    apply ext_toList
    rw [toList_prepend, toList_map, toList_map, toList_prepend, List.map_append]
  | overwrite updates => exact overwrite_map f row updates
  | project indices => exact project_map f row indices

theorem runAll_map (f : α → β) (row : Row α) (operations : List (Operation α)) :
    (row.map f).runAll (operations.map (.map f)) = Row.map f <$> row.runAll operations := by
  induction operations generalizing row with
  | nil => rfl
  | cons operation rest ih =>
    rw [List.map_cons, runAll, runAll, List.foldlM_cons, List.foldlM_cons, operation.run_map]
    cases operation.run row with
    | error broken => rfl
    | ok next => exact ih next

/-- Operations in range go through on the row. Mapping `f` over what operations leave is making
the operations with `f`, on the row that was mapped first. -/
structure MapCommutes (f : α → β) (row : Row α) : Prop where
  runAll_ok {operations : List (Operation α)} (h : Operation.InRange operations row.length) :
    ∃ last, row.runAll operations = .ok last
  mapM_runAll (operations : List (Operation α)) :
    (do (← row.runAll operations).mapM fun field ↦ pure (f field)) =
      (do (← row.mapM fun field ↦ pure (f field)).runAll (operations.map (.map f)) :
        Except Violation (Row β))

theorem mapCommutes (f : α → β) (row : Row α) : row.MapCommutes f where
  runAll_ok := runAll_of_inRange
  mapM_runAll operations := by
    simp only [mapM_pure, pure_bind, bind_pure_comp, runAll_map]

/-! ### Constants -/

theorem map_mk_ofList (values : List α) : (ofList values).map Constant.mk = ofConstants values := by
  apply ext_toList
  rw [toList_map]
  rfl

theorem collapse_map_mk (row : Row α) : (row.map Constant.mk).collapse = row.toList := by
  rw [collapse, toList_map, List.map_map]
  exact List.map_id row.toList

/-- Operations on a row of constants answer as the same operations on the values do. -/
theorem collapse_runAll (values : List α) (operations : List (Operation α)) :
    collapse <$> (ofConstants values).runAll (operations.map (.map Constant.mk)) =
      toList <$> (ofList values).runAll operations := by
  rw [← map_mk_ofList, runAll_map, ← comp_map]
  exact congrArg (· <$> (ofList values).runAll operations) (funext collapse_map_mk)

/-! ### Pairs -/

/-- Pairing rows of one length by a pure function. -/
theorem zipWithM_pure [LawfulMonad m] (f : α → β → γ) {left : Row α} {right : Row β}
    (h : left.length = right.length) :
    Row.zipWithM (fun a b ↦ (pure (f a b) : m γ)) left right =
      .ok (pure (ofList (List.zipWith f left.toList right.toList))) := by
  rw [zipWithM_eq (fun pair ↦ (pure (f pair.1 pair.2) : m γ)) h,
    mapM_pure fun pair : α × β ↦ f pair.1 pair.2]
  apply congrArg fun row ↦ Except.ok (pure row)
  apply ext_toList
  rw [toList_map, toList_ofList, toList_ofList]
  exact List.map_zip_eq_zipWith

theorem zipWithM_map [LawfulMonad m] (f : γ → δ → ε) (g : α → γ) (h : β → δ) (left : Row α)
    (right : Row β) :
    Row.zipWithM (fun c d ↦ (pure (f c d) : m ε)) (left.map g) (right.map h) =
      Row.zipWithM (fun a b ↦ (pure (f (g a) (h b)) : m ε)) left right := by
  by_cases hlength : left.length = right.length
  · rw [zipWithM_pure f (by rwa [length_map, length_map]), zipWithM_pure _ hlength, toList_map,
      toList_map, List.zipWith_map]
  · rw [Row.zipWithM, Row.zipWithM, length_map, length_map,
      Violation.checkShape_of_ne .plain hlength]
    rfl

/-- Pairing two rows after mapping them is pairing them by the function that maps first. On rows of
one length it goes through. -/
structure PairCommutes (m : Type → Type) [Monad m] (f : γ → δ → ε) (g : α → γ) (h : β → δ)
    (left : Row α) (right : Row β) : Prop where
  zipWithM_mapM :
    (do
        let left ← left.mapM fun a ↦ pure (g a)
        let right ← right.mapM fun b ↦ pure (h b)
        Row.zipWithM (fun c d ↦ (pure (f c d) : m ε)) left right) =
      Row.zipWithM (fun a b ↦ pure (f (g a) (h b))) left right
  zipWithM_ok (hlength : left.length = right.length) :
    Row.zipWithM (fun a b ↦ (pure (f (g a) (h b)) : m ε)) left right =
      .ok (pure (.ofList (List.zipWith (fun a b ↦ f (g a) (h b)) left.toList right.toList)))

theorem pairCommutes [LawfulMonad m] (f : γ → δ → ε) (g : α → γ) (h : β → δ) (left : Row α)
    (right : Row β) : PairCommutes m f g h left right where
  zipWithM_mapM := by simp only [mapM_pure, pure_bind, zipWithM_map]
  zipWithM_ok := zipWithM_pure _

end Row

/-! ## Records -/

namespace Record

/-- An operation on the fields of a record by position, or a flush. -/
inductive Operation (α : Type)
  | prepend (fields : List α)
  | set (index : Nat) (field : α)
  | project (indices : List Nat)
  | flush

namespace Operation

/-- The edit that makes the operation. -/
def edit : Operation α → Edit α α
  | .prepend fields => .prepend fields
  | .set index field => .set index field
  | .project indices => .project indices
  | .flush => .flush

/-- The operation at the same positions with `f` applied to the fields that it brings in. -/
def map (f : α → β) : Operation α → Operation β
  | .prepend fields => .prepend (fields.map f)
  | .set index field => .set index (f field)
  | .project indices => .project indices
  | .flush => .flush

/-- The number of fields after the operation. -/
def lengthAfter : Operation α → Nat → Nat
  | .prepend fields, length => fields.length + length
  | .project indices, _ => indices.length
  | .set _ _, length | .flush, length => length

/-- Every position that the operations name is one of the record at that moment, which starts with
`length` fields. -/
def InRange : List (Operation α) → Nat → Prop
  | [], _ => True
  | operation :: rest, length =>
    operation.edit.InRange length ∧ InRange rest (operation.lengthAfter length)

/-- The operations in order, and then further edits. -/
def before : List (Operation α) → Edits α β → Edits α β
  | [], last => last
  | operation :: rest, last => .next operation.edit (before rest last)

/-- The operations alone. -/
def edits (operations : List (Operation α)) : Edits α α := before operations .done

/-- The operations, and then `f` on every field. -/
def mappedLast (f : α → β) (operations : List (Operation α)) : Edits α β :=
  before operations (.next (.map f) .done)

/-- First `f` on every field, and then the operations with `f` on what they bring in. -/
def mappedFirst (f : α → β) (operations : List (Operation α)) : Edits α β :=
  .next (.map f) (edits (operations.map (.map f)))

/-! ### On lists -/

/-- One operation commutes with mapping the list. -/
theorem onList_map (f : α → β) (operation : Operation α) (fields : List α) :
    (operation.map f).edit.onList (fields.map f) =
      (operation.edit.onList fields).map (List.map f) := by
  cases operation with
  | prepend added => exact congrArg some List.map_append.symm
  | set index field =>
    rw [map, edit, edit, Edit.onList, Edit.onList, List.length_map]
    split
    · exact congrArg some List.map_set.symm
    · rfl
  | project indices => exact Row.mapM_getElem?_map f fields indices
  | flush => rfl

theorem onList_before (operations : List (Operation α)) (last : Edits α β) (fields : List α) :
    (before operations last).onList fields =
      ((edits operations).onList fields).bind last.onList := by
  induction operations generalizing fields with
  | nil => rfl
  | cons operation rest ih =>
    rw [before, edits, before, Edits.onList, Edits.onList, Option.bind_assoc]
    exact congrArg _ (funext ih)

theorem onList_edits_map (f : α → β) (operations : List (Operation α)) (fields : List α) :
    (edits (operations.map (.map f))).onList (fields.map f) =
      ((edits operations).onList fields).map (List.map f) := by
  induction operations generalizing fields with
  | nil => rfl
  | cons operation rest ih =>
    rw [List.map_cons, edits, edits, before, before, Edits.onList, Edits.onList, onList_map]
    cases operation.edit.onList fields with
    | none => rfl
    | some next => exact ih next

/-- Mapping first or last comes to the same on lists. -/
theorem onList_mappedFirst (f : α → β) (operations : List (Operation α)) (fields : List α) :
    (mappedFirst f operations).onList fields = (mappedLast f operations).onList fields := by
  rw [mappedLast, onList_before]
  change (edits (operations.map (.map f))).onList (fields.map f) = _
  rw [onList_edits_map]
  cases (edits operations).onList fields <;> rfl

theorem length_onList {operation : Operation α} {fields next : List α}
    (h : operation.edit.onList fields = some next) :
    next.length = operation.lengthAfter fields.length := by
  cases operation with
  | prepend added =>
    obtain rfl := Option.some.inj h
    exact List.length_append
  | set index field =>
    rw [edit, Edit.onList] at h
    split at h
    · obtain rfl := Option.some.inj h
      exact List.length_set
    · cases h
  | project indices => exact Row.length_of_picked h
  | flush =>
    obtain rfl := Option.some.inj h
    rfl

/-- A list allows exactly the operations that are in range. -/
theorem inRange_iff (operations : List (Operation α)) (fields : List α) :
    InRange operations fields.length ↔ ((edits operations).onList fields).isSome := by
  induction operations generalizing fields with
  | nil => exact iff_of_true trivial rfl
  | cons operation rest ih =>
    rw [InRange, edits, before, Edits.onList]
    cases hnext : operation.edit.onList fields with
    | none =>
      have hrange := (operation.edit.onList_eq_none_iff fields).mp hnext
      simp [hrange]
    | some next =>
      have hrange : operation.edit.InRange fields.length := by
        by_contra hpast
        rw [(operation.edit.onList_eq_none_iff fields).mpr hpast] at hnext
        cases hnext
      rw [and_iff_right hrange, ← length_onList hnext, Option.bind_some]
      exact ih next

end Operation

end Record

/-! ## Runs -/

/-- The run goes through and leaves a record that answers as this list. -/
def Leaves (fields : List α) (result : EStateM.Result Fault (Journal ν σ) (Record α)) : Prop :=
  ∃ record finish, result = .ok record finish ∧ record.Shows fields

/-- The run is refused for a position past the end. -/
def IsRefused (result : EStateM.Result Fault (Journal ν σ) (Record α)) : Prop :=
  ∃ broken stop, result = .error (.violation broken) stop

theorem Edits.leaves_of_some (edits : Edits α β) {record : Record α} (hsound : record.Sound)
    {fields : List β} (h : edits.onList record.toList = some fields) (start : Journal ν σ) :
    Leaves fields (edits.run record start) := by
  obtain ⟨last, finish, hrun, rfl, hlast⟩ := edits.run_of_some hsound h start
  exact ⟨last, finish, hrun, hlast.shows⟩

namespace Record

/-- Operations in range go through on the record and leave the same rows whether `f` is applied to
all fields at the end, or at the start and to every field that comes in. Other operations are
refused both ways. -/
structure MapCommutes (f : α → β) (record : Record α) : Prop where
  leaves {operations : List (Operation α)} (h : Operation.InRange operations record.length)
      {ν σ : Type} (start start' : Journal ν σ) :
    ∃ fields, Leaves fields ((Operation.mappedLast f operations).run record start) ∧
      Leaves fields ((Operation.mappedFirst f operations).run record start')
  isRefused {operations : List (Operation α)} (h : ¬ Operation.InRange operations record.length)
      {ν σ : Type} (start start' : Journal ν σ) :
    IsRefused ((Operation.mappedLast f operations).run record start) ∧
      IsRefused ((Operation.mappedFirst f operations).run record start')

theorem Sound.mapCommutes {record : Record α} (hsound : record.Sound) (f : α → β) :
    record.MapCommutes f where
  leaves {operations} h _ _ start start' := by
    rw [← length_toList, Operation.inRange_iff] at h
    obtain ⟨fields, hfields⟩ := Option.isSome_iff_exists.mp h
    have hlast : (Operation.mappedLast f operations).onList record.toList =
        some (fields.map f) := by
      rw [Operation.mappedLast, Operation.onList_before, hfields]
      rfl
    have hfirst := (Operation.onList_mappedFirst f operations record.toList).trans hlast
    exact ⟨_, Edits.leaves_of_some _ hsound hlast start,
      Edits.leaves_of_some _ hsound hfirst start'⟩
  isRefused {operations} h _ _ start start' := by
    rw [← length_toList, Operation.inRange_iff, Option.not_isSome_iff_eq_none] at h
    have hlast : (Operation.mappedLast f operations).onList record.toList = none := by
      rw [Operation.mappedLast, Operation.onList_before, h]
      rfl
    have hfirst := (Operation.onList_mappedFirst f operations record.toList).trans hlast
    exact ⟨Edits.run_of_none _ hsound hlast start, Edits.run_of_none _ hsound hfirst start'⟩

end Record

/-- Operations that bring in constants leave, on a record or a row of constants, the constants of
what the operations leave on the values. -/
structure ConstantsCommute (values : List α) : Prop where
  record {operations : List (Record.Operation α)}
      (h : Record.Operation.InRange operations values.length) {ν σ : Type}
      (start start' : Journal ν σ) :
    ∃ row : Row (Constant α),
      Leaves row.toList
        ((Record.Operation.edits (operations.map (.map Constant.mk))).run
          (.ofRow (.ofConstants values)) start) ∧
      Leaves row.collapse
        ((Record.Operation.edits operations).run (.ofRow (.ofList values)) start')
  row (operations : List (Row.Operation α)) :
    Row.collapse <$> (Row.ofConstants values).runAll (operations.map (.map Constant.mk)) =
      Row.toList <$> (Row.ofList values).runAll operations

theorem constantsCommute (values : List α) : ConstantsCommute values where
  record {operations} h _ _ start start' := by
    rw [Record.Operation.inRange_iff] at h
    obtain ⟨fields, hfields⟩ := Option.isSome_iff_exists.mp h
    have hconstants : (Record.Operation.edits (operations.map (.map Constant.mk))).onList
        (Record.ofRow (.ofConstants values)).toList = some (fields.map Constant.mk) := by
      rw [Record.toList_ofRow, ← Row.map_mk_ofList, Row.toList_map, Row.toList_ofList,
        Record.Operation.onList_edits_map, hfields]
      rfl
    have hvalues : (Record.Operation.edits operations).onList
        (Record.ofRow (.ofList values)).toList = some fields := by
      rwa [Record.toList_ofRow]
    refine ⟨.ofConstants fields, Edits.leaves_of_some _ (Record.sound_ofRow _) hconstants start, ?_⟩
    rw [Row.collapse_ofConstants]
    exact Edits.leaves_of_some _ (Record.sound_ofRow _) hvalues start'
  row := Row.collapse_runAll values

/-- Mapping commutes with every operation: on a record that a caller can reach, on a row, for
constants in the place of values, and in pairing two rows. -/
theorem map_commutes [LawfulMonad m] (f : α → β) {written : Bool} {record : Record α}
    (hrecord : record.Reached written) (row : Row α) (values : List α) (pairing : γ → δ → ε)
    (onLeft : α → γ) (onRight : β → δ) (left : Row α) (right : Row β) :
    record.MapCommutes f ∧ row.MapCommutes f ∧ ConstantsCommute values ∧
      Row.PairCommutes m pairing onLeft onRight left right :=
  ⟨hrecord.sound.mapCommutes f, row.mapCommutes f, constantsCommute values,
    Row.pairCommutes pairing onLeft onRight left right⟩

/-- A record with a prepended field is written and flushed, prepended to, and projected with a
repetition; every field is doubled. -/
theorem map_commutes_prepended_and_flushed :
    let record : Record Nat := (Record.ofList [1, 2, 3]).prepend [4]
    let operations : List (Record.Operation Nat) :=
      [.set 1 5, .flush, .prepend [6], .project [0, 2, 2]]
    record.Reached true ∧ Record.Operation.InRange operations record.length ∧
      Leaves [12, 10, 10] ((Record.Operation.mappedLast (2 * ·) operations).run record
        (.start () : Journal Unit Unit)) ∧
      Leaves [12, 10, 10] ((Record.Operation.mappedFirst (2 * ·) operations).run record
        (.start () : Journal Unit Unit)) := by
  intro record operations
  have hrecord : record.Reached true := (Record.Reached.ofList [1, 2, 3]).prepend [4]
  have hrange : Record.Operation.InRange operations record.length := by
    change Record.Operation.InRange operations 4
    simp [operations, Record.Operation.InRange, Record.Operation.edit, Edit.InRange,
      Record.Operation.lengthAfter]
  obtain ⟨hcommutes, -⟩ := map_commutes (m := Id) (2 * ·) hrecord .empty [] (· + ·) id id
    (.empty : Row Nat) .empty
  obtain ⟨fields, hlast, hfirst⟩ := hcommutes.leaves hrange (.start () : Journal Unit Unit) (.start ())
  obtain rfl : fields = [12, 10, 10] := by
    obtain ⟨last, finish, hrun, hshows⟩ := hlast
    cases hrun
    exact (Except.ok.inj hshows.scan_eq).symm
  exact ⟨hrecord, hrange, hlast, hfirst⟩

end PositionalRecord
