import PositionalRecord.Proofs.Reached
import PositionalRecord.Proofs.Violations

/-!
# Refusals in the terms of the caller

A caller counts positions in the record that is shown and knows its whole length, whatever is
pending. A refusal speaks to the caller if it names the operation that was called, the position
that was passed and that length. Reads and writes of a record always do. A projection does only on
a clean record, since on a dirty one it is refused as the read of a field; and reading through
pending changes does only if nothing is prepended, since the row refuses under its own positions.
-/

namespace PositionalRecord

variable {α β : Type}

/-- The text of a refusal that names this operation, this position and this length. -/
def accessText (operation : String) (index length : Nat) : String :=
  "contract violation: " ++ operation ++ ": index " ++ toString index ++
    " out of bounds for record of length " ++ toString length

/-- The call is refused with this text. -/
def RefusedWith (text : String) : Except Violation α → Prop
  | .ok _ => False
  | .error broken => broken.message = text

/-- Both calls are refused, and with the same text. -/
def RefusedAlike (first : Except Violation α) (second : Except Violation β) : Prop :=
  ∃ text, RefusedWith text first ∧ RefusedWith text second

/-- A refusal has the text of an access exactly if it refuses that access. -/
theorem refusedWith_iff {outcome : Except Violation α} {broken : Violation}
    (h : outcome = .error broken) (access : Access) (index length : Nat) :
    RefusedWith (accessText access.label index length) outcome ↔
      broken = .outOfBounds access index length := by
  subst h
  change broken.message = (Violation.outOfBounds access index length).message ↔ _
  exact Violation.message_injective.eq_iff

theorem refusedAlike_iff {first : Except Violation α} {second : Except Violation β}
    {broken other : Violation} (hfirst : first = .error broken) (hsecond : second = .error other) :
    RefusedAlike first second ↔ broken = other := by
  subst hfirst hsecond
  constructor
  · rintro ⟨text, hbroken, hother⟩
    exact Violation.message_injective (hbroken.trans hother.symm)
  · intro hsame
    exact ⟨broken.message, rfl, congrArg Violation.message hsame.symm⟩

/-! ## Pending changes -/

/-- How reading through pending changes refuses a position past the end: under its position in the
row, which is the caller's only if nothing is prepended. -/
structure Pending.Refusals (pending : Pending α) (row : Row α) : Prop where
  get_text {index : Nat} (h : pending.prepended + row.length ≤ index) :
    RefusedWith (accessText "get" (index - pending.prepended) row.length) (pending.get row index)
  get_iff {index : Nat} (h : pending.prepended + row.length ≤ index) :
    RefusedWith (accessText "get" index (pending.prepended + row.length))
      (pending.get row index) ↔ pending.prepended = 0

theorem Pending.refusals {pending : Pending α} {row : Row α}
    (hkeys : ∀ key ∈ pending.overwrites.keys, key < row.length) : pending.Refusals row where
  get_text h := (refusedWith_iff (get_of_past hkeys h) .get _ _).mpr rfl
  get_iff {index} h := by
    have hget := refusedWith_iff (get_of_past hkeys h) .get index (pending.prepended + row.length)
    rw [Violation.outOfBounds.injEq, and_iff_right rfl] at hget
    refine hget.trans ?_
    omega

/-! ## Records -/

namespace Record

/-- How a record and its flushed copy refuse positions past the end. Only the projection of a
dirty record is refused under another name than its own. -/
structure Refusals (record : Record α) : Prop where
  get_text {index : Nat} (h : record.length ≤ index) :
    RefusedWith (accessText "get" index record.length) (record.get index)
  set_text {index : Nat} (h : record.length ≤ index) (field : α) :
    RefusedWith (accessText "set" index record.length) (record.set index field)
  project_text {indices : List Nat} {index : Nat}
    (h : indices.find? (record.length ≤ ·) = some index) :
    RefusedWith (accessText (if record.isDirty then "get" else "project") index record.length)
      (record.project indices)
  project_iff {indices : List Nat} {index : Nat}
    (h : indices.find? (record.length ≤ ·) = some index) :
    RefusedWith (accessText "project" index record.length) (record.project indices) ↔
      record.isDirty = false
  flushed_alike {ν σ : Type} (journal : Journal ν σ) : ∃ flushed finish,
    record.settle journal = .ok flushed finish ∧
      (∀ index, record.length ≤ index → RefusedAlike (record.get index) (flushed.get index)) ∧
      (∀ index field, record.length ≤ index →
        RefusedAlike (record.set index field) (flushed.set index field)) ∧
      ∀ indices index, indices.find? (record.length ≤ ·) = some index →
        (RefusedAlike (record.project indices) (flushed.project indices) ↔
          record.isDirty = false)

theorem Sound.refusals {record : Record α} (hsound : record.Sound) : record.Refusals where
  get_text h := (refusedWith_iff (get_of_le h) .get _ _).mpr rfl
  set_text h field := (refusedWith_iff (set_of_le h field) .set _ _).mpr rfl
  project_text h := by
    have hproject := project_of_past h
    cases hdirty : record.isDirty with
    | true =>
      rw [hdirty] at hproject
      exact (refusedWith_iff hproject .get _ _).mpr rfl
    | false =>
      rw [hdirty] at hproject
      exact (refusedWith_iff hproject .project _ _).mpr rfl
  project_iff {indices index} h := by
    have hproject := refusedWith_iff (project_of_past h) .project index record.length
    refine hproject.trans ?_
    cases record.isDirty <;> simp
  flushed_alike journal := by
    have hlength : (ofList record.toList).length = record.length := by
      rw [length_ofList, length_toList]
    refine ⟨_, _, hsound.settle_eq journal, ?_, ?_, ?_⟩
    · intro index h
      refine (refusedAlike_iff (get_of_le h) (get_of_le (by rwa [hlength]))).mpr ?_
      rw [hlength]
    · intro index field h
      refine (refusedAlike_iff (set_of_le h field) (set_of_le (by rwa [hlength]) field)).mpr ?_
      rw [hlength]
    · intro indices index h
      have hflushed : indices.find? ((ofList record.toList).length ≤ ·) = some index := by
        rwa [hlength]
      refine (refusedAlike_iff (project_of_past h) (project_of_past hflushed)).trans ?_
      have hclean : (ofList record.toList).isDirty = false := isDirty_ofRow _
      rw [hclean, hlength]
      cases record.isDirty <;> simp

end Record

/-- Which calls past the end speak to the caller: all reads and writes of a record that a caller
can reach, its projections exactly if it is clean, and reads through overwrites in range exactly
if nothing is prepended. -/
theorem refusals_of_reached {written : Bool} {record : Record α}
    (hrecord : Record.Reached written record) {pending : Pending β} {row : Row β}
    (hkeys : ∀ key ∈ pending.overwrites.keys, key < row.length) :
    record.Refusals ∧ pending.Refusals row :=
  ⟨hrecord.sound.refusals, Pending.refusals hkeys⟩

/-- A written record of three fields is refused a projection under the name of a read. Reading
position 5 through one field prepended to nothing is refused as position 4 of nothing. -/
theorem refusals_written_and_prepended :
    ∃ record : Record Nat, Record.Reached true record ∧ record.length = 3 ∧
      RefusedWith (accessText "get" 9 record.length) (record.project [9]) ∧
      ¬ RefusedWith (accessText "project" 9 record.length) (record.project [9]) ∧
      ∃ pending : Pending Nat, pending.prepended = 1 ∧
        RefusedWith (accessText "get" 4 0) (pending.get .empty 5) ∧
        ¬ RefusedWith (accessText "get" 5 1) (pending.get .empty 5) := by
  have hwritten : Record.Reached true (⟨.ofList [1, 2, 3], ⟨⟨[(0, 5)]⟩, #[]⟩⟩ : Record Nat) :=
    (Record.Reached.ofList [1, 2, 3]).set (show Record.set _ 0 5 = .ok _ from rfl)
  have hkeys : ∀ key ∈ (⟨.empty, #[7]⟩ : Pending Nat).overwrites.keys,
      key < (Row.empty : Row Nat).length := nofun
  obtain ⟨hrecord, hpending⟩ := refusals_of_reached hwritten hkeys
  have hpast : [9].find? (fun index ↦ decide (3 ≤ index)) = some 9 := rfl
  have hend : (⟨.empty, #[7]⟩ : Pending Nat).prepended + (Row.empty : Row Nat).length ≤ 5 := by
    decide
  have hproject := hrecord.project_text hpast
  rw [if_pos (show Record.isDirty _ = true from rfl)] at hproject
  have hread := hpending.get_text hend
  rw [show 5 - (⟨.empty, #[7]⟩ : Pending Nat).prepended = 4 from rfl] at hread
  refine ⟨_, hwritten, rfl, hproject, ?_, _, rfl, hread, ?_⟩
  · intro h
    cases (hrecord.project_iff hpast).mp h
  · intro h
    cases (hpending.get_iff hend).mp h

end PositionalRecord
