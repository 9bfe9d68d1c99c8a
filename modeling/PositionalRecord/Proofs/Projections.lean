import PositionalRecord.Proofs.Records

/-!
# Projections

A row checks all positions before it reads a field; a clean record leaves that to its row, and a
dirty one reads field by field through its changes. All of them pick fields by position, and from
this alone follow the laws of projecting: where it is refused, what each position gives, and that
positions picked from positions can be picked at once.
-/

namespace PositionalRecord

variable {α β S : Type}

/-! ## Positions picked from positions -/

/-- Picking from picked fields is picking once, at the positions picked from the positions. -/
theorem picked_of_picked {fields middle : List α} {first : List Nat}
    (h : first.mapM (fields[·]?) = some middle) {second : List Nat}
    (hsecond : ∀ index ∈ second, index < first.length) :
    (second.pmap (fun index (hindex : index < first.length) ↦ first[index]) hsecond).mapM
        (fields[·]?) =
      second.mapM (middle[·]?) := by
  induction second with
  | nil => rfl
  | cons index rest ih =>
    obtain ⟨hindex, hrest⟩ := List.forall_mem_cons.mp hsecond
    have hfield : middle[index]? = fields[first[index]]? := by
      rw [Row.getElem?_of_picked h, List.getElem?_eq_getElem hindex, Option.bind_some]
    rw [List.pmap_cons, List.mapM_cons, List.mapM_cons, ih hrest, hfield]

/-! ## The laws -/

/-- The laws of projecting `source`, which has a length and is read by position. A projection is
refused at the first position past the end, and otherwise reads at each place as `source` at the
position for it. All positions in order give what reads as `source`. What was projected on `first`
is refused a projection at the first position past the end of `first`, and otherwise gives what
`source` gives on the positions picked from `first`. -/
structure ProjectionLaws (length : S → Nat) (read : S → Nat → Except Violation α)
    (project : S → List Nat → Except Violation S) (refusedAs : Access) (source : S) : Prop where
  refused_iff (indices : List Nat) (broken : Violation) :
    project source indices = .error broken ↔
      ∃ index, Row.FirstPast (length source) indices index ∧
        broken = .outOfBounds refusedAs index (length source)
  goes_through {indices : List Nat} (h : ∀ index ∈ indices, index < length source) :
    ∃ projected, project source indices = .ok projected ∧ length projected = indices.length ∧
      ∀ (place : Nat) (hplace : place < indices.length),
        read projected place = read source indices[place]
  whole : ∃ same, project source (List.range (length source)) = .ok same ∧
    length same = length source ∧ ∀ index, read same index = read source index
  twice {first : List Nat} (h : ∀ index ∈ first, index < length source) :
    ∃ middle, project source first = .ok middle ∧
      (∀ second broken, project middle second = .error broken ↔
        ∃ index, Row.FirstPast first.length second index ∧
          broken = .outOfBounds .project index first.length) ∧
      ∀ (second : List Nat) (hsecond : ∀ index ∈ second, index < first.length), ∃ last,
        project middle second = .ok last ∧
          project source
            (second.pmap (fun index (hindex : index < first.length) ↦ first[index]) hsecond) =
              .ok last

/-! ## Picking fields by position -/

/-- Reading and projecting go by the fields shown: a read gives the field at the position, and a
projection makes what shows the fields at the positions. Each is refused past the end, a
projection of what another one made under its own name. -/
structure PicksShown (shown : S → List α) (made : List α → S) (length : S → Nat)
    (read : S → Nat → Except Violation α) (project : S → List Nat → Except Violation S)
    (refusedAs : S → Access) : Prop where
  length_eq (source : S) : length source = (shown source).length
  shown_made (fields : List α) : shown (made fields) = fields
  refusedAs_made (fields : List α) : refusedAs (made fields) = .project
  read_of_some {source : S} {index : Nat} {field : α} (h : (shown source)[index]? = some field) :
    read source index = .ok field
  read_of_le {source : S} {index : Nat} (h : length source ≤ index) :
    read source index = .error (.outOfBounds .get index (length source))
  project_of_picked {source : S} {indices : List Nat} {picked : List α}
      (hnone : indices.find? (length source ≤ ·) = none)
      (h : indices.mapM ((shown source)[·]?) = some picked) :
    project source indices = .ok (made picked)
  project_of_past {source : S} {indices : List Nat} {index : Nat}
      (h : indices.find? (length source ≤ ·) = some index) :
    project source indices = .error (.outOfBounds (refusedAs source) index (length source))

namespace PicksShown

variable {shown : S → List α} {made : List α → S} {length : S → Nat}
  {read : S → Nat → Except Violation α} {project : S → List Nat → Except Violation S}
  {refusedAs : S → Access}

theorem project_of_inRange (h : PicksShown shown made length read project refusedAs) {source : S}
    {indices : List Nat} (hrange : ∀ index ∈ indices, index < length source) :
    ∃ picked, indices.mapM ((shown source)[·]?) = some picked ∧
      project source indices = .ok (made picked) := by
  have hbound : ∀ index ∈ indices, index < (shown source).length := by rwa [← h.length_eq]
  obtain ⟨picked, hpicked⟩ := Row.picked_of_inRange hbound
  exact ⟨picked, hpicked, h.project_of_picked (Row.inRange_iff.mp hrange) hpicked⟩

theorem project_eq_error_iff (h : PicksShown shown made length read project refusedAs) (source : S)
    (indices : List Nat) (broken : Violation) :
    project source indices = .error broken ↔
      ∃ index, Row.FirstPast (length source) indices index ∧
        broken = .outOfBounds (refusedAs source) index (length source) := by
  simp only [Row.firstPast_iff]
  cases hpast : indices.find? (length source ≤ ·) with
  | some index => simp [h.project_of_past hpast, eq_comm]
  | none =>
    obtain ⟨picked, -, hproject⟩ := h.project_of_inRange (Row.inRange_iff.mpr hpast)
    simp [hproject]

/-- Whatever shows the same fields reads the same. -/
theorem read_eq_of_shown_eq (h : PicksShown shown made length read project refusedAs)
    {source other : S} (hshown : shown source = shown other) (index : Nat) :
    read source index = read other index := by
  have hlength : length source = length other := by rw [h.length_eq, h.length_eq, hshown]
  cases hfield : (shown source)[index]? with
  | some field => rw [h.read_of_some hfield, h.read_of_some (hshown ▸ hfield)]
  | none =>
    rw [List.getElem?_eq_none_iff, ← h.length_eq] at hfield
    rw [h.read_of_le hfield, h.read_of_le (hlength ▸ hfield), hlength]

theorem projectionLaws (h : PicksShown shown made length read project refusedAs) (source : S) :
    ProjectionLaws length read project (refusedAs source) source where
  refused_iff := h.project_eq_error_iff source
  goes_through {indices} hrange := by
    obtain ⟨picked, hpicked, hproject⟩ := h.project_of_inRange hrange
    refine ⟨made picked, hproject, ?_, ?_⟩
    · rw [h.length_eq, h.shown_made, Row.length_of_picked hpicked]
    · intro place hplace
      have hbound : indices[place] < (shown source).length := by
        rw [← h.length_eq]
        exact hrange _ (List.getElem_mem hplace)
      have hsource : (shown source)[indices[place]]? = some (shown source)[indices[place]] :=
        List.getElem?_eq_getElem hbound
      have hmade : (shown (made picked))[place]? = some (shown source)[indices[place]] := by
        rw [h.shown_made, Row.getElem?_of_picked hpicked, List.getElem?_eq_getElem hplace,
          Option.bind_some, hsource]
      rw [h.read_of_some hmade, h.read_of_some hsource]
  whole := by
    have hrange : ∀ index ∈ List.range (length source), index < length source :=
      fun index hindex ↦ List.mem_range.mp hindex
    have hpicked : (List.range (length source)).mapM ((shown source)[·]?) = some (shown source) := by
      rw [h.length_eq]
      exact Row.mapM_range_length (shown source)
    have hshown := h.shown_made (shown source)
    refine ⟨made (shown source), h.project_of_picked (Row.inRange_iff.mp hrange) hpicked, ?_,
      h.read_eq_of_shown_eq hshown⟩
    rw [h.length_eq, hshown, h.length_eq]
  twice {first} hfirst := by
    obtain ⟨picked, hpicked, hproject⟩ := h.project_of_inRange hfirst
    have hlength : length (made picked) = first.length := by
      rw [h.length_eq, h.shown_made, Row.length_of_picked hpicked]
    refine ⟨made picked, hproject, ?_, ?_⟩
    · intro second broken
      rw [h.project_eq_error_iff, hlength, h.refusedAs_made]
    · intro second hsecond
      rw [← hlength] at hsecond
      obtain ⟨last, hlast, hmiddle⟩ := h.project_of_inRange hsecond
      rw [hlength] at hsecond
      refine ⟨made last, hmiddle, h.project_of_picked ?_ ?_⟩
      · rw [← Row.inRange_iff]
        intro index hindex
        obtain ⟨position, hposition, rfl⟩ := List.mem_pmap.mp hindex
        exact hfirst _ (List.getElem_mem _)
      · rw [picked_of_picked hpicked]
        rwa [h.shown_made] at hlast

end PicksShown

/-! ## Rows and records -/

theorem Row.picksShown : PicksShown (α := α) Row.toList Row.ofList Row.length Row.get Row.project
    fun _ ↦ .project where
  length_eq row := row.length_toList.symm
  shown_made := Row.toList_ofList
  refusedAs_made _ := rfl
  read_of_some := Row.get_of_some
  read_of_le := Row.get_of_past
  project_of_picked := Row.project_of_picked
  project_of_past := Row.project_of_past

/-- Whether a record is read through its changes shows in the name of a refusal only. -/
theorem Record.picksShown : PicksShown (α := α) Record.toList Record.ofList Record.length Record.get
    Record.project fun record ↦ if record.isDirty then .get else .project where
  length_eq record := record.length_toList.symm
  shown_made := Record.toList_ofList
  refusedAs_made _ := rfl
  read_of_some := Record.get_of_some
  read_of_le := Record.get_of_le
  project_of_picked := Record.project_of_picked
  project_of_past := Record.project_of_past

/-- Projecting a row follows the laws, and so does projecting a record, whatever is pending on it.
A row projected on all its positions is the same row. -/
theorem projections_compose (row : Row α) (record : Record β) :
    ProjectionLaws Row.length Row.get Row.project .project row ∧
      row.project (List.range row.length) = .ok row ∧
      ProjectionLaws Record.length Record.get Record.project
        (if record.isDirty then .get else .project) record := by
  refine ⟨Row.picksShown.projectionLaws row, ?_, Record.picksShown.projectionLaws record⟩
  have hnone : (List.range row.length).find? (row.length ≤ ·) = none :=
    Row.inRange_iff.mp fun index hindex ↦ List.mem_range.mp hindex
  have hpicked := Row.mapM_range_length row.toList
  rw [Row.length_toList] at hpicked
  exact Row.project_of_picked hnone hpicked

/-- A record with a written and a prepended field is projected with a repetition, and then on two
of the three places. A place past these three is reported as a projection of three fields. -/
theorem projections_compose_through_changes :
    let record : Record Nat := ⟨.ofList [1, 2, 3], ⟨⟨[(0, 9)]⟩, #[4]⟩⟩
    record.isDirty = true ∧
    (∃ middle, record.project [3, 1, 1] = .ok middle ∧
      middle.project [1, 5, 3] = .error (.outOfBounds .project 5 3) ∧
      ∃ last, middle.project [2, 0] = .ok last ∧ record.project [1, 3] = .ok last) ∧
    record.project [1, 4] = .error (.outOfBounds .get 4 4) := by
  intro record
  obtain ⟨-, -, hrecord⟩ := projections_compose (.empty : Row Nat) record
  refine ⟨rfl, ?_, (hrecord.refused_iff _ _).mpr ⟨4, ⟨[1], [], rfl, by decide, by decide⟩, rfl⟩⟩
  have hfirst : ∀ index ∈ [3, 1, 1], index < record.length := by decide
  obtain ⟨middle, hmiddle, hrefused, htwice⟩ := hrecord.twice hfirst
  refine ⟨middle, hmiddle, ?_, htwice [2, 0] (by decide)⟩
  exact (hrefused _ _).mpr ⟨5, ⟨[1], [3], rfl, by decide, by decide⟩, rfl⟩

end PositionalRecord
