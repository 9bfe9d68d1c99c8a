import PositionalRecord.Proofs.Records

/-!
# Records that a caller can reach

A record in a caller's hands was made clean and then changed by calls that went through. Beside it
goes a mark that no code keeps: whether a field was written or something was prepended since the
record was made or last flushed. Every record reached so is sound, and its dirtiness is the mark.
The functions of a caller may have any effect of their own and may stop their run.
-/

namespace PositionalRecord.Record

variable {α β ν σ : Type}

/-- The record is the outcome of calls that went through. The mark says whether a field was
written or something was prepended since the record was made or last flushed. -/
inductive Reached : {α : Type} → Bool → Record α → Prop
  | empty {α : Type} : Reached false (empty : Record α)
  | ofRow {α : Type} (row : Row α) : Reached false (ofRow row)
  | ofList {α : Type} (fields : List α) : Reached false (ofList fields)
  | prepend {α : Type} {written : Bool} {record : Record α} (h : Reached written record)
      (fields : List α) : Reached (written || !fields.isEmpty) (record.prepend fields)
  | set {α : Type} {written : Bool} {record changed : Record α} {index : Nat} {field : α}
      (h : Reached written record) (hset : record.set index field = .ok changed) :
      Reached true changed
  | settle {α ν σ : Type} {written : Bool} {record flushed : Record α}
      {start finish : Journal ν σ} (h : Reached written record)
      (hsettle : record.settle start = .ok flushed finish) : Reached false flushed
  | project {α : Type} {written : Bool} {record projected : Record α} {indices : List Nat}
      (h : Reached written record) (hproject : record.project indices = .ok projected) :
      Reached false projected
  | mapM {α β ν σ : Type} {written : Bool} {record : Record α} {mapped : Record β}
      {f : α → Run ν σ β} {start finish : Journal ν σ} (h : Reached written record)
      (hmap : record.mapM f start = .ok mapped finish) : Reached false mapped

/-! ## What the calls leave -/

/-- A projection that goes through leaves a clean record. -/
theorem project_clean {record projected : Record α} {indices : List Nat}
    (h : record.project indices = .ok projected) : ∃ row, projected = ofRow row := by
  rcases Row.picked_or_past record.toList indices with ⟨picked, hpicked, hnone⟩ | ⟨_, -, hpast⟩
  · rw [length_toList] at hnone
    rw [project_of_picked hnone hpicked] at h
    exact ⟨.ofList picked, (Except.ok.inj h).symm⟩
  · rw [length_toList] at hpast
    rw [project_of_past hpast] at h
    cases h

/-- A traversal that goes through leaves a clean record, whatever the function does. -/
theorem Sound.mapM_clean {record : Record α} {mapped : Record β} {f : α → Run ν σ β}
    {start finish : Journal ν σ} (hsound : record.Sound)
    (h : record.mapM f start = .ok mapped finish) : ∃ row, mapped = ofRow row := by
  rw [hsound.mapM_eq] at h
  obtain ⟨row, -, hmapped⟩ := Run.of_map_ok h
  exact ⟨row, hmapped.symm⟩

/-! ## The invariant -/

/-- Whatever calls led to it, the changes pending on a record can be made. -/
theorem Reached.sound {written : Bool} {record : Record α} (h : Reached written record) :
    record.Sound := by
  induction h with
  | empty => exact sound_ofRow .empty
  | ofRow row => exact sound_ofRow row
  | ofList fields => exact sound_ofList fields
  | prepend _ fields ih => exact ih.prepend fields
  | set _ hset ih => exact ih.set hset
  | settle _ hsettle ih =>
    rw [ih.settle_eq] at hsettle
    cases hsettle
    exact sound_ofRow _
  | project _ hproject _ =>
    obtain ⟨row, rfl⟩ := project_clean hproject
    exact sound_ofRow row
  | mapM _ hmap ih =>
    obtain ⟨row, rfl⟩ := ih.mapM_clean hmap
    exact sound_ofRow row

/-- A record is dirty exactly if something was written or prepended since it was made or last
flushed. -/
theorem Reached.isDirty_eq {written : Bool} {record : Record α} (h : Reached written record) :
    record.isDirty = written := by
  induction h with
  | empty | ofRow _ | ofList _ => rfl
  | prepend _ fields ih => rw [isDirty_prepend, ih]
  | @set _ _ record changed index field _ hset _ =>
    by_cases hindex : index < record.length
    · obtain ⟨_, hchanged, -, -, -, hdirty⟩ := set_of_lt hindex field
      cases hchanged.symm.trans hset
      exact hdirty
    · rw [set_of_le (Nat.le_of_not_lt hindex)] at hset
      cases hset
  | settle hrecord hsettle _ =>
    rw [hrecord.sound.settle_eq] at hsettle
    cases hsettle
    rfl
  | project _ hproject _ =>
    obtain ⟨row, rfl⟩ := project_clean hproject
    rfl
  | mapM hrecord hmap _ =>
    obtain ⟨row, rfl⟩ := hrecord.sound.mapM_clean hmap
    rfl

/-! ## Making the changes -/

/-- The changes pending on the record can be made, and nothing that makes them is ever refused:
flushing keeps the length and leaves a clean record, traversals go on from the row of current
fields, and the numbers that are reported fit the record. -/
structure Flushable (record : Record α) : Prop where
  nodup_keys : record.pending.overwrites.keys.Nodup
  key_lt : ∀ key ∈ record.pending.overwrites.keys, key < record.row.length
  commit_eq {ν σ : Type} (journal : Journal ν σ) :
    record.commit journal = .ok (.ofList record.toList) (record.reported journal)
  settle_eq {ν σ : Type} (journal : Journal ν σ) : ∃ flushed,
    record.settle journal = .ok flushed (record.reported journal) ∧
      flushed.length = record.length ∧ flushed.isDirty = false
  mapM_eq {ν σ β : Type} (f : α → Run ν σ β) (journal : Journal ν σ) :
    record.mapM f journal =
      (Record.ofRow <$> (Row.ofList record.toList).mapM f) (record.reported journal)
  traverse_eq {ν σ β ρ : Type} {F : Type → Type} [Effect F ρ] (f : α → Run ν σ (F β))
    (journal : Journal ν σ) :
    record.traverse f journal =
      (Row.ofList record.toList).traverse f (record.reported journal)
  reported_eq {ν σ : Type} (journal : Journal ν σ) : ∃ overwrites prepended length,
    overwrites ≤ length ∧ length + prepended = record.length ∧
      record.reported journal =
        if record.isDirty then
          { journal with log := journal.log.push (.flush overwrites prepended length) }
        else journal

theorem Sound.flushable {record : Record α} (h : record.Sound) : record.Flushable where
  nodup_keys := h.nodup_keys
  key_lt := h.key_lt
  commit_eq := h.commit_eq
  settle_eq journal := by
    refine ⟨_, h.settle_eq journal, ?_, rfl⟩
    rw [length_ofList, length_toList]
  mapM_eq := h.mapM_eq
  traverse_eq := h.traverse_eq
  reported_eq journal :=
    ⟨record.pending.overwrites.length, record.pending.prepended, record.row.length,
      h.length_overwrites_le, rfl, rfl⟩

/-- In every record that a caller can reach, the pending changes can be made, and the record is
dirty exactly if there are any since it was made or last flushed. -/
theorem Reached.flushable_and_isDirty_eq {written : Bool} {record : Record α} (h : Reached written record) :
    record.Flushable ∧ record.isDirty = written :=
  ⟨h.sound.flushable, h.isDirty_eq⟩

/-- A record of three fields with two fields prepended, one of them and one of the old fields
written afterwards. -/
theorem flushable_prepended_and_written :
    ∃ record : Record Nat, Reached true record ∧ record.toList = [7, 5, 1, 6, 3] ∧
      record.Flushable ∧ record.isDirty = true := by
  have hprepended : Reached true ((ofList [1, 2, 3]).prepend [4, 5]) :=
    (Reached.ofList [1, 2, 3]).prepend [4, 5]
  have hold : Reached true (⟨.ofList [1, 2, 3], ⟨⟨[(1, 6)]⟩, #[5, 4]⟩⟩ : Record Nat) :=
    hprepended.set (show Record.set _ 3 6 = .ok _ from rfl)
  have hnew : Reached true (⟨.ofList [1, 2, 3], ⟨⟨[(1, 6)]⟩, #[5, 7]⟩⟩ : Record Nat) :=
    hold.set (show Record.set _ 0 7 = .ok _ from rfl)
  exact ⟨_, hnew, rfl, hnew.flushable_and_isDirty_eq⟩

end PositionalRecord.Record
