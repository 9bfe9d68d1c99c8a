import PositionalRecord.Proofs.Records

/-!
# Histories of records

A record comes from an origin through a sequence of edits. Run on the record itself, an edit adds
to the pending changes, reads through them or makes them; read on a plain list, it is one list
operation and fails only on a position past the end. One step of the run follows one step of the
list and keeps the record sound; whole runs follow by induction on the sequence, so a record can
be taken for the list of its fields wherever it was flushed on the way.
-/

namespace PositionalRecord

variable {α β γ ν σ : Type}

/-! ## Edits -/

/-- One operation on a record of `α` that leaves a record of `β`. To rebuild a record is to take
its row and to start a clean record over it. -/
inductive Edit : Type → Type → Type 1
  | prepend {α : Type} (fields : List α) : Edit α α
  | set {α : Type} (index : Nat) (field : α) : Edit α α
  | flush {α : Type} : Edit α α
  | rebuild {α : Type} : Edit α α
  | project {α : Type} (indices : List Nat) : Edit α α
  | map {α β : Type} (f : α → β) : Edit α β

/-- Edits one after the other, each on the record that the one before left. -/
inductive Edits : Type → Type → Type 1
  | done {α : Type} : Edits α α
  | next {α β γ : Type} (edit : Edit α β) (rest : Edits β γ) : Edits α γ

/-- What a record is first made of. -/
inductive Origin (α : Type)
  | empty
  | ofRow (row : Row α)
  | ofList (fields : List α)

def Origin.record : Origin α → Record α
  | .empty => .empty
  | .ofRow row => .ofRow row
  | .ofList fields => .ofList fields

def Origin.toList : Origin α → List α
  | .empty => []
  | .ofRow row => row.toList
  | .ofList fields => fields

/-! ## On records -/

def Edit.run : Edit α β → Record α → Run ν σ (Record β)
  | .prepend fields, record => pure (record.prepend fields)
  | .set index field, record => Run.ofExcept (record.set index field)
  | .flush, record => record.settle
  | .rebuild, record => Record.ofRow <$> record.commit
  | .project indices, record => Run.ofExcept (record.project indices)
  | .map f, record => record.mapM fun field ↦ pure (f field)

/-- All edits in order, until one is refused. -/
def Edits.run : {α β : Type} → Edits α β → Record α → Run ν σ (Record β)
  | _, _, .done, record => pure record
  | _, _, .next edit rest, record => do rest.run (← edit.run record)

/-! ## On lists -/

/-- An edit of the plain list of fields, unless it names a position past the end. -/
def Edit.onList : Edit α β → List α → Option (List β)
  | .prepend fields, current => some (fields ++ current)
  | .set index field, current =>
    if index < current.length then some (current.set index field) else none
  | .flush, current => some current
  | .rebuild, current => some current
  | .project indices, current => indices.mapM (current[·]?)
  | .map f, current => some (current.map f)

/-- All edits of the plain list in order, unless one of them names a position past the end. -/
def Edits.onList : {α β : Type} → Edits α β → List α → Option (List β)
  | _, _, .done, current => some current
  | _, _, .next edit rest, current => (edit.onList current).bind rest.onList

/-- The positions that an edit names are positions of a list of this length. -/
def Edit.InRange : Edit α β → Nat → Prop
  | .set index _, length => index < length
  | .project indices, length => ∀ index ∈ indices, index < length
  | .prepend _, _ | .flush, _ | .rebuild, _ | .map _, _ => True

/-- A list refuses exactly the edits that name a position past its end. -/
theorem Edit.onList_eq_none_iff (edit : Edit α β) (fields : List α) :
    edit.onList fields = none ↔ ¬ edit.InRange fields.length := by
  cases edit with
  | set index field => simp [onList, InRange]
  | project indices =>
    rcases Row.picked_or_past fields indices with ⟨picked, hpicked, hnone⟩ | ⟨index, hpast, hfind⟩
    · have hrange : ∀ index ∈ indices, index < fields.length := Row.inRange_iff.mpr hnone
      rw [onList, hpicked]
      exact iff_of_false (Option.some_ne_none picked) (not_not_intro hrange)
    · have hmem : index ∈ indices := List.mem_of_find?_eq_some hfind
      have hindex : fields.length ≤ index := by simpa using List.find?_some hfind
      rw [onList, hpast]
      exact iff_of_true rfl fun hrange ↦ Nat.not_lt_of_le hindex (hrange index hmem)
  | prepend _ | flush | rebuild | map _ => simp [onList, InRange]

/-! ## One step -/

theorem Origin.toList_record (origin : Origin α) : origin.record.toList = origin.toList := by
  cases origin with
  | empty => exact Record.toList_ofRow .empty
  | ofRow row => exact Record.toList_ofRow row
  | ofList fields => exact Record.toList_ofList fields

theorem Origin.sound_record (origin : Origin α) : origin.record.Sound := by
  cases origin with
  | empty => exact Record.sound_ofRow .empty
  | ofRow row => exact Record.sound_ofRow row
  | ofList fields => exact Record.sound_ofList fields

/-- An edit that the list allows is made on the record, whatever is pending on it. -/
theorem Edit.run_of_some {edit : Edit α β} {record : Record α} (hsound : record.Sound)
    {fields : List β} (h : edit.onList record.toList = some fields) (start : Journal ν σ) :
    ∃ next finish, edit.run record start = .ok next finish ∧
      next.toList = fields ∧ next.Sound := by
  -- Every edit that makes the record anew leaves a clean record of the right fields.
  have hfresh (fields : List β) : (Record.ofList fields).toList = fields ∧
      (Record.ofList fields).Sound :=
    ⟨Record.toList_ofList fields, Record.sound_ofList fields⟩
  cases edit with
  | prepend added =>
    obtain rfl := Option.some.inj h
    exact ⟨_, start, rfl, record.toList_prepend added, hsound.prepend added⟩
  | set index field =>
    by_cases hindex : index < record.toList.length
    · rw [onList, if_pos hindex] at h
      obtain rfl := Option.some.inj h
      rw [Record.length_toList] at hindex
      obtain ⟨next, hset, -, -, htoList, -⟩ := Record.set_of_lt hindex field
      refine ⟨next, start, ?_, htoList, hsound.set hset⟩
      rw [run, hset]
      rfl
    · rw [onList, if_neg hindex] at h
      cases h
  | flush =>
    obtain rfl := Option.some.inj h
    exact ⟨_, _, hsound.settle_eq start, hfresh _⟩
  | rebuild =>
    obtain rfl := Option.some.inj h
    exact ⟨_, _, Run.map_ok (hsound.commit_eq start) Record.ofRow, hfresh _⟩
  | project indices =>
    rcases Row.picked_or_past record.toList indices with ⟨picked, hpicked, hnone⟩ | ⟨_, hpast, -⟩
    · obtain rfl : picked = fields := Option.some.inj (hpicked.symm.trans h)
      rw [Record.length_toList] at hnone
      refine ⟨_, start, ?_, hfresh picked⟩
      rw [run, Record.project_of_picked hnone hpicked]
      rfl
    · cases hpast.symm.trans h
  | map f =>
    obtain rfl := Option.some.inj h
    exact ⟨_, _, hsound.mapM_pure_eq f start, hfresh _⟩

/-- An edit that names a position past the end is refused, and nothing else happens. -/
theorem Edit.run_of_none {edit : Edit α β} {record : Record α}
    (h : edit.onList record.toList = none) (start : Journal ν σ) :
    ∃ broken, edit.run record start = .error (.violation broken) start := by
  cases edit with
  | set index field =>
    by_cases hindex : index < record.toList.length
    · rw [onList, if_pos hindex] at h
      cases h
    · have hpast : record.length ≤ index := by
        rw [← Record.length_toList]
        exact Nat.le_of_not_lt hindex
      refine ⟨.outOfBounds .set index record.length, ?_⟩
      rw [run, Record.set_of_le hpast]
      rfl
  | project indices =>
    rcases Row.picked_or_past record.toList indices with ⟨_, hpicked, -⟩ | ⟨position, -, hpast⟩
    · cases hpicked.symm.trans h
    · rw [Record.length_toList] at hpast
      refine ⟨.outOfBounds (if record.isDirty then .get else .project) position record.length, ?_⟩
      rw [run, Record.project_of_past hpast]
      rfl
  | prepend _ | flush | rebuild | map _ => cases h

/-! ## Whole runs -/

/-- Edits that the list allows are all made, and the record keeps up with the list. -/
theorem Edits.run_of_some (edits : Edits α β) {record : Record α} (hsound : record.Sound)
    {fields : List β} (h : edits.onList record.toList = some fields) (start : Journal ν σ) :
    ∃ last finish, edits.run record start = .ok last finish ∧
      last.toList = fields ∧ last.Sound := by
  induction edits generalizing start with
  | done => exact ⟨record, start, rfl, Option.some.inj h, hsound⟩
  | next edit rest ih =>
    obtain ⟨middle, hmiddle, hrest⟩ := Option.bind_eq_some_iff.mp h
    obtain ⟨next, journal, hrun, hnext, hsound⟩ := Edit.run_of_some hsound hmiddle start
    rw [← hnext] at hrest
    obtain ⟨last, finish, hlast, htoList, hsound⟩ := ih hsound hrest journal
    refine ⟨last, finish, ?_, htoList, hsound⟩
    rw [run, Run.bind_ok hrun, hlast]

/-- Edits of which the list refuses one are refused. -/
theorem Edits.run_of_none (edits : Edits α β) {record : Record α} (hsound : record.Sound)
    (h : edits.onList record.toList = none) (start : Journal ν σ) :
    ∃ broken stop, edits.run record start = .error (.violation broken) stop := by
  induction edits generalizing start with
  | done => cases h
  | next edit rest ih =>
    cases hedit : edit.onList record.toList with
    | none =>
      obtain ⟨broken, hrun⟩ := Edit.run_of_none hedit start
      exact ⟨broken, start, Run.bind_error hrun _⟩
    | some middle =>
      obtain ⟨next, journal, hrun, hnext, hsound⟩ := Edit.run_of_some hsound hedit start
      rw [onList, hedit, Option.bind_some, ← hnext] at h
      obtain ⟨broken, stop, hstop⟩ := ih hsound h journal
      exact ⟨broken, stop, by rw [run, Run.bind_ok hrun, hstop]⟩

/-! ## Refinement -/

/-- Asked in any way, the record answers as the list `fields` does. -/
structure Record.Shows (record : Record α) (fields : List α) : Prop where
  scan_eq : record.scan = .ok fields
  get_eq (index : Nat) : record.get index =
    match fields[index]? with
    | some field => .ok field
    | none => .error (.outOfBounds .get index fields.length)
  commit_eq {ν σ : Type} (journal : Journal ν σ) :
    record.commit journal = .ok (.ofList fields) (record.reported journal)
  length_eq : record.length = fields.length
  isEmpty_eq : record.isEmpty = fields.isEmpty

/-- A sound record answers as the list of its current fields. -/
theorem Record.Sound.shows {record : Record α} (h : record.Sound) :
    record.Shows record.toList where
  scan_eq := record.scan_eq
  get_eq index := by
    cases hfield : record.toList[index]? with
    | some field => exact get_of_some hfield
    | none =>
      rw [List.getElem?_eq_none_iff, length_toList] at hfield
      rw [get_of_le hfield, length_toList]
  commit_eq := h.commit_eq
  length_eq := record.length_toList.symm
  isEmpty_eq := record.isEmpty_eq

/-- Records refine lists over whole runs. A run of edits goes through exactly when the list
allows all of them; the record it leaves answers as the list, and refuses exactly the edits that
name a position past the end of the list. -/
theorem Edits.run_refines (origin : Origin α) (edits : Edits α β) (start : Journal ν σ) :
    match edits.onList origin.toList with
    | some fields =>
      ∃ record finish, edits.run origin.record start = .ok record finish ∧
        record.Shows fields ∧
        ∀ {γ : Type} (edit : Edit β γ) (journal : Journal ν σ),
          (∃ fault stop, edit.run record journal = .error fault stop) ↔
            ¬ edit.InRange fields.length
    | none => ∃ broken stop, edits.run origin.record start = .error (.violation broken) stop := by
  have hsound : origin.record.Sound := origin.sound_record
  cases hlist : edits.onList origin.toList with
  | none =>
    rw [← origin.toList_record] at hlist
    exact edits.run_of_none hsound hlist start
  | some fields =>
    rw [← origin.toList_record] at hlist
    obtain ⟨record, finish, hrun, htoList, hrecord⟩ := edits.run_of_some hsound hlist start
    subst htoList
    refine ⟨record, finish, hrun, hrecord.shows, ?_⟩
    intro γ edit journal
    rw [← edit.onList_eq_none_iff]
    constructor
    · rintro ⟨fault, stop, herror⟩
      cases hstep : edit.onList record.toList with
      | none => rfl
      | some next =>
        obtain ⟨_, _, hok, -, -⟩ := Edit.run_of_some hrecord hstep journal
        cases herror.symm.trans hok
    · intro hnone
      obtain ⟨broken, herror⟩ := Edit.run_of_none hnone journal
      exact ⟨.violation broken, journal, herror⟩

end PositionalRecord
