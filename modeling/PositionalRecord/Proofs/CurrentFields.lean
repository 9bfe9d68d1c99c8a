import PositionalRecord.Proofs.Callbacks
import PositionalRecord.Proofs.Reached
import PositionalRecord.Proofs.Synchrony

/-!
# Traversals of current fields

A traversal makes the pending changes first and then goes on like the traversal of a row. Going
through a record by reading needs no such thing: the field at each position is read through the
changes and the function is called on it at once. Both come to the same after the report of the
flush, whatever the function does, by induction on the positions that are left. So a traversal runs
on the current fields only, and a field that another change hides never reaches the function.
-/

namespace PositionalRecord

variable {ν σ α β ρ : Type} {F : Type → Type} [Effect F ρ]

/-! ## Runs that report nothing -/

/-- The run leaves the log as it is, whether it answers or faults. -/
def Run.KeepsLog (run : Run ν σ α) : Prop :=
  ∀ start : Journal ν σ, (run.leave start).log = start.log

theorem afterCalls_log {f : α → Run ν σ β} (h : ∀ item, (f item).KeepsLog) (items : List α)
    (start : Journal ν σ) : (afterCalls f items start).log = start.log := by
  induction items generalizing start with
  | nil => rfl
  | cons item rest ih => exact (ih _).trans (h item start)

/-! ## Going through a record by reading -/

namespace Record

/-- Reads so many fields from position `index` on, and calls `f` on each one before the next is
read, until a call gives a residual. The row of `outputs` and of what these calls add, or that
residual. -/
def visitFrom (f : α → Run ν σ (F β)) (record : Record α) (index : Nat) (outputs : Array β) :
    Nat → Run ν σ (F (Row β))
  | 0 => return Effect.ofOutput ⟨outputs⟩
  | remaining + 1 => do
    let field ← Run.ofExcept (record.get index)
    match Effect.branch (← f field) with
    | .error held => return Effect.ofResidual held
    | .ok output => visitFrom f record (index + 1) (outputs.push output) remaining

/-- Goes through a record from its first field to its last by reading. -/
def visit (f : α → Run ν σ (F β)) (record : Record α) : Run ν σ (F (Row β)) :=
  record.visitFrom f 0 #[] record.length

/-- Reading from a position on is collecting what is left of the list of current fields. -/
theorem visitFrom_eq (f : α → Run ν σ (F β)) (record : Record α) {index remaining : Nat}
    (h : index + remaining = record.length) (outputs : Array β) :
    record.visitFrom f index outputs remaining =
      Suspended.conclude outputs <$> collect f (record.toList.drop index) := by
  induction remaining generalizing index outputs with
  | zero =>
    have hrest : record.toList.drop index = [] := by
      apply List.drop_of_length_le
      rw [length_toList]
      exact Nat.le_of_eq h.symm
    rw [visitFrom, hrest, collect, map_pure]
    simp [Suspended.conclude, Except.map, Effect.ofBranch]
  | succ remaining ih =>
    have hindex : index < record.toList.length := by
      rw [length_toList]
      omega
    have hread : record.get index = .ok record.toList[index] :=
      get_of_some (List.getElem?_eq_getElem hindex)
    have hnext : index + 1 + remaining = record.length := by omega
    rw [visitFrom, hread, List.drop_eq_getElem_cons hindex, collect_cons, map_bind]
    change (f record.toList[index] >>= _) = _
    apply bind_congr
    intro effect
    cases Effect.branch effect with
    | error held => exact (map_pure _ _).symm
    | ok output =>
      calc
        record.visitFrom f (index + 1) (outputs.push output) remaining
        _ = Suspended.conclude (outputs.push output) <$>
              collect f (record.toList.drop (index + 1)) := ih hnext (outputs.push output)
        _ = Suspended.conclude outputs <$> (·.map (output :: ·)) <$>
              collect f (record.toList.drop (index + 1)) := by
          rw [Functor.map_map]
          simp only [Suspended.conclude_push]

theorem visit_eq (f : α → Run ν σ (F β)) (record : Record α) :
    record.visit f = (Row.ofList record.toList).traverse f := by
  rw [visit, visitFrom_eq f record (Nat.zero_add _), List.drop_zero,
    Suspended.traverse_eq_conclude, Row.toList_ofList]

/-- What `f` does with a field that cannot be read is never seen. -/
theorem visitFrom_congr {f g : α → Run ν σ (F β)} {record : Record α}
    (h : ∀ index field, record.get index = .ok field → f field = g field) (index remaining : Nat)
    (outputs : Array β) :
    record.visitFrom f index outputs remaining = record.visitFrom g index outputs remaining := by
  induction remaining generalizing index outputs with
  | zero => rfl
  | succ remaining ih =>
    rw [visitFrom, visitFrom]
    cases hread : record.get index with
    | error broken => rfl
    | ok field =>
      change (f field >>= _) = (g field >>= _)
      rw [h index field hread]
      apply bind_congr
      intro effect
      cases Effect.branch effect with
      | error held => rfl
      | ok output => exact ih (index + 1) (outputs.push output)

/-! ## Traversing after a flush -/

/-- A traversal of a sound record is the report and then going through the record by reading. -/
theorem Sound.traverse_eq_visit {record : Record α} (h : record.Sound) (f : α → Run ν σ (F β))
    (journal : Journal ν σ) :
    record.traverse f journal = record.visit f (record.reported journal) := by
  rw [h.traverse_eq, visit_eq]

/-- Calling a function on every field is going through the record without stops. -/
theorem Sound.mapM_eq_traverse {record : Record α} (h : record.Sound) (f : α → Run ν σ β)
    (journal : Journal ν σ) :
    record.mapM f journal = (ofRow <$> record.traverse (F := Id) (ρ := Empty) f) journal := by
  rw [h.mapM_eq, ← Row.traverse_id]
  exact Run.map_congr (h.traverse_eq (F := Id) f journal).symm ofRow

/-- What a traversal leaves behind are the calls on the first few of the current fields, made after
the report. -/
theorem Sound.leave_traverse {record : Record α} (h : record.Sound) (f : α → Run ν σ (F β))
    (journal : Journal ν σ) :
    ∃ count, (record.traverse f).leave journal =
      afterCalls f (record.toList.take count) (record.reported journal) := by
  obtain ⟨count, hleave⟩ := leave_collect f record.toList (record.reported journal)
  refine ⟨count, ?_⟩
  calc
    (record.traverse f).leave journal
    _ = ((Row.ofList record.toList).traverse f).leave (record.reported journal) := by
      rw [Run.leave, Run.leave, h.traverse_eq]
    _ = (collect f record.toList).leave (record.reported journal) := by
      rw [Row.traverse_eq_collect, Run.leave_map, Row.toList_ofList]
    _ = afterCalls f (record.toList.take count) (record.reported journal) := hleave

theorem Sound.leave_mapM {record : Record α} (h : record.Sound) (f : α → Run ν σ β)
    (journal : Journal ν σ) :
    (record.mapM f).leave journal = (record.traverse (F := Id) (ρ := Empty) f).leave journal := by
  rw [← Run.leave_map _ ofRow, Run.leave, Run.leave, h.mapM_eq_traverse]

/-! ## What is reported and shown -/

/-- If the function reports nothing, the flush of a dirty record is all that a traversal reports. -/
theorem Sound.traverse_log {record : Record α} (h : record.Sound) {f : α → Run ν σ (F β)}
    (hf : ∀ field, (f field).KeepsLog) (journal : Journal ν σ) :
    ((record.traverse f).leave journal).log =
      if record.isDirty then journal.log.push (record.pending.receipt record.row)
      else journal.log := by
  obtain ⟨count, hleave⟩ := h.leave_traverse f journal
  rw [hleave, afterCalls_log hf, reported_log]

/-- Between the journals the first few of the current fields, as they are read one after the other,
were shown as the arguments of calls, and nothing else was shown. -/
def ShowsFirst (record : Record α) (start finish : Journal α (Tallied σ)) : Prop :=
  ∃ shown rest, (List.range record.length).mapM record.get = .ok (shown ++ rest) ∧
    start.Adds (callEvents (fun field ↦ [field]) shown start.world.calls) finish

theorem Sound.traverse_showsFirst {record : Record α} (h : record.Sound)
    (f : Callback σ α (F β)) (journal : Journal α (Tallied σ)) :
    record.ShowsFirst journal ((record.traverse (f.call fun field ↦ [field])).leave journal) := by
  obtain ⟨count, hleave⟩ := h.leave_traverse (f.call fun field ↦ [field]) journal
  refine ⟨record.toList.take count, record.toList.drop count, ?_, ?_⟩
  · rw [List.take_append_drop, ← length_toList]
    exact Row.mapM_read_of_picked (fun _ _ hfield ↦ get_of_some hfield)
      (Row.mapM_range_length record.toList)
  · -- The report of the flush changes neither the trace nor the world.
    have hcalls := f.afterCalls_call_adds (fun field ↦ [field]) (record.toList.take count)
      (record.reported journal)
    rw [Journal.Adds, reported_trace, reported_world] at hcalls
    rw [hleave]
    exact hcalls

/-! ## Reached records -/

/-- Whatever is pending on the record, its traversals run on the current fields only. -/
structure RunsOnCurrent (record : Record α) : Prop where
  mapM_eq {ν σ β : Type} (f : α → Run ν σ β) (journal : Journal ν σ) :
    record.mapM f journal = (ofRow <$> record.visit (F := Id) f) (record.reported journal)
  traverse_eq {ν σ β ρ : Type} {F : Type → Type} [Effect F ρ] (f : α → Run ν σ (F β))
      (journal : Journal ν σ) :
    record.traverse f journal = record.visit f (record.reported journal)
  mapM_congr {ν σ β : Type} {f g : α → Run ν σ β}
      (h : ∀ index field, record.get index = .ok field → f field = g field) :
    (record.mapM f : Run ν σ (Record β)) = record.mapM g
  traverse_congr {ν σ β ρ : Type} {F : Type → Type} [Effect F ρ] {f g : α → Run ν σ (F β)}
      (h : ∀ index field, record.get index = .ok field → f field = g field) :
    record.traverse f = record.traverse g
  mapM_shows {σ β : Type} (f : Callback σ α β) (journal : Journal α (Tallied σ)) :
    record.ShowsFirst journal ((record.mapM (f.call fun field ↦ [field])).leave journal)
  traverse_shows {σ β ρ : Type} {F : Type → Type} [Effect F ρ] (f : Callback σ α (F β))
      (journal : Journal α (Tallied σ)) :
    record.ShowsFirst journal ((record.traverse (f.call fun field ↦ [field])).leave journal)
  mapM_log {ν σ β : Type} {f : α → Run ν σ β} (hf : ∀ field, (f field).KeepsLog)
      (journal : Journal ν σ) :
    ((record.mapM f).leave journal).log =
      if record.isDirty then journal.log.push (record.pending.receipt record.row)
      else journal.log
  traverse_log {ν σ β ρ : Type} {F : Type → Type} [Effect F ρ] {f : α → Run ν σ (F β)}
      (hf : ∀ field, (f field).KeepsLog) (journal : Journal ν σ) :
    ((record.traverse f).leave journal).log =
      if record.isDirty then journal.log.push (record.pending.receipt record.row)
      else journal.log

theorem Sound.runsOnCurrent {record : Record α} (h : record.Sound) : record.RunsOnCurrent where
  mapM_eq f journal :=
    (h.mapM_eq_traverse f journal).trans
      (Run.map_congr (h.traverse_eq_visit (F := Id) f journal) ofRow)
  traverse_eq := h.traverse_eq_visit
  mapM_congr {_ _ _ f g} hfg := by
    funext journal
    have hvisit : record.visit (F := Id) (ρ := Empty) f = record.visit g :=
      visitFrom_congr hfg 0 record.length #[]
    rw [h.mapM_eq_traverse, h.mapM_eq_traverse]
    apply Run.map_congr
    rw [h.traverse_eq_visit, h.traverse_eq_visit, hvisit]
  traverse_congr {_ _ _ _ _ _ f g} hfg := by
    funext journal
    have hvisit : record.visit f = record.visit g := visitFrom_congr hfg 0 record.length #[]
    rw [h.traverse_eq_visit, h.traverse_eq_visit, hvisit]
  mapM_shows f journal := by
    rw [h.leave_mapM]
    exact h.traverse_showsFirst (F := Id) f journal
  traverse_shows := h.traverse_showsFirst
  mapM_log {_ _ _ f} hf journal := by
    rw [h.leave_mapM]
    exact h.traverse_log (F := Id) hf journal
  traverse_log := h.traverse_log

/-- Traversals of a record that a caller can reach run on its current fields only. -/
theorem Reached.runs_on_current {written : Bool} {record : Record α}
    (h : Reached written record) : record.RunsOnCurrent :=
  h.sound.runsOnCurrent

/-- Raises at 2, 4 and 6, holds 7 back, and adds one to any other number. -/
def pickySuccessor : Callback Unit Nat (Except Nat Nat) := fun n own ↦
  (if n ∈ [2, 4, 6] then .error "hidden" else if n = 7 then .ok (.error n) else .ok (.ok (n + 1)),
    own)

/-- Of the fields 1, 2, 3 and the prepended 4, 5, the field 2 is written as 6 and then as 7, and 4
is written as 8. None of 2, 4 and 6 is passed to the function, which stops the traversal at 7. The
flush is reported also if the function raises at its first call. -/
theorem runs_on_current_written_twice :
    ∃ record : Record Nat, Reached true record ∧ record.toList = [8, 5, 1, 7, 3] ∧
      record.traverse (pickySuccessor.call fun n ↦ [n]) (.start ⟨0, ()⟩) =
        .ok (.error 7) ⟨#[.flush 1 2 3], #[.call 0 [8], .call 1 [5], .call 2 [1], .call 3 [7]],
          ⟨4, ()⟩⟩ ∧
      record.mapM (fun _ ↦ (Run.raise "at once" : Run Nat Unit Nat)) (.start ()) =
        .error (.raised "at once") ⟨#[.flush 1 2 3], #[], ()⟩ := by
  have hprepended : Reached true ((ofList [1, 2, 3]).prepend [4, 5]) :=
    (Reached.ofList [1, 2, 3]).prepend [4, 5]
  have honce : Reached true (⟨.ofList [1, 2, 3], ⟨⟨[(1, 6)]⟩, #[5, 4]⟩⟩ : Record Nat) :=
    hprepended.set (show Record.set _ 3 6 = .ok _ from rfl)
  have htwice : Reached true (⟨.ofList [1, 2, 3], ⟨⟨[(1, 7)]⟩, #[5, 4]⟩⟩ : Record Nat) :=
    honce.set (show Record.set _ 3 7 = .ok _ from rfl)
  have hrecord : Reached true (⟨.ofList [1, 2, 3], ⟨⟨[(1, 7)]⟩, #[5, 8]⟩⟩ : Record Nat) :=
    htwice.set (show Record.set _ 0 8 = .ok _ from rfl)
  have hruns := hrecord.runs_on_current
  exact ⟨_, hrecord, rfl, hruns.traverse_eq _ _, hruns.mapM_eq _ _⟩

end Record

end PositionalRecord
