import Mathlib.Data.List.Forall2
import PositionalRecord.Value.Equality
import PositionalRecord.Proofs.Edits
import PositionalRecord.Proofs.Reached

/-!
# Records that compare equal

Comparing and showing a record goes through its current fields, so both see the row that the
pending changes make and nothing of how they are split up. Equality is kept by what callers do: two
records that compare equal are changed by the same operations, with values that compare equal and
with flushes of either record anywhere in between. One operation keeps the lists of current fields
related, or is refused on both; whole histories follow by induction on the moves.

Nothing is assumed of the relation on values: it may depend on which copy a value is.
-/

namespace PositionalRecord

variable {α ν σ : Type}

/-! ## Related lists -/

/-- Comparing two lists is relating them position by position. -/
theorem relateEach_iff {related : α → α → Bool} {fields others : List α} :
    Content.relateEach related fields others ↔ List.Forall₂ (related · ·) fields others := by
  induction fields generalizing others with
  | nil => cases others <;> simp [Content.relateEach, Content.relateFront]
  | cons field fields ih =>
    cases others with
    | nil => simp [Content.relateEach]
    | cons other others =>
      rw [Content.relateEach_cons, Bool.and_eq_true, ih, List.forall₂_cons]

section Related

variable {R : α → α → Prop} {fields others : List α}

theorem forall₂_set (h : List.Forall₂ R fields others) {field other : α} (hfield : R field other)
    (index : Nat) : List.Forall₂ R (fields.set index field) (others.set index other) := by
  induction h generalizing index with
  | nil => exact .nil
  | cons hhead htail ih =>
    cases index with
    | zero => exact .cons hfield htail
    | succ index => exact .cons hhead (ih index)

theorem forall₂_getElem? (h : List.Forall₂ R fields others) (index : Nat) :
    Option.Rel R fields[index]? others[index]? := by
  induction h generalizing index with
  | nil => exact .none
  | cons hhead _ ih =>
    cases index with
    | zero => exact .some hhead
    | succ index => exact ih index

/-- Picking the same positions of related lists picks related fields, or is past the end of both. -/
theorem forall₂_mapM (h : List.Forall₂ R fields others) (indices : List Nat) :
    Option.Rel (List.Forall₂ R) (indices.mapM (fields[·]?)) (indices.mapM (others[·]?)) := by
  induction indices with
  | nil => exact .some .nil
  | cons index rest ih =>
    have hhead := forall₂_getElem? h index
    rw [List.mapM_cons, List.mapM_cons]
    generalize fields[index]? = picked, others[index]? = other at hhead ⊢
    generalize rest.mapM (fields[·]?) = pickedRest, rest.mapM (others[·]?) = otherRest at ih ⊢
    cases hhead with
    | none => exact .none
    | some hfield =>
      cases ih with
      | none => exact .none
      | some hrest => exact .some (.cons hfield hrest)

end Related

/-! ## Alike histories -/

/-- The two edits are one operation at the same positions, with related values. -/
inductive Edit.Alike (related : α → α → Bool) : Edit α α → Edit α α → Prop
  | prepend {fields others : List α} (h : Content.relateEach related fields others) :
    Alike related (.prepend fields) (.prepend others)
  | set (index : Nat) {field other : α} (h : related field other) :
    Alike related (.set index field) (.set index other)
  | project (indices : List Nat) : Alike related (.project indices) (.project indices)

/-- A move of two histories side by side: an edit on either side, or a flush on one side only. -/
inductive Move (α : Type) : Type 1
  | both (edit other : Edit α α)
  | flushFirst
  | flushSecond

/-- The moves on both sides are alike. -/
def Move.Alike (related : α → α → Bool) : Move α → Prop
  | .both edit other => edit.Alike related other
  | .flushFirst | .flushSecond => True

/-- What the moves do on the first side. -/
def firstSide : List (Move α) → Edits α α
  | [] => .done
  | .both edit _ :: rest => .next edit (firstSide rest)
  | .flushFirst :: rest => .next .flush (firstSide rest)
  | .flushSecond :: rest => firstSide rest

/-- What the moves do on the second side. -/
def secondSide : List (Move α) → Edits α α
  | [] => .done
  | .both _ other :: rest => .next other (secondSide rest)
  | .flushFirst :: rest => secondSide rest
  | .flushSecond :: rest => .next .flush (secondSide rest)

/-- Both sides were refused, or both went through and left records that compare equal. -/
inductive InStep (related : α → α → Bool) :
    EStateM.Result Fault (Journal ν σ) (Record α) → EStateM.Result Fault (Journal ν σ) (Record α) →
      Prop
  | refused {broken broken' : Violation} {stop stop' : Journal ν σ} :
    InStep related (.error (.violation broken) stop) (.error (.violation broken') stop')
  | changed {record other : Record α} {finish finish' : Journal ν σ}
      (h : (Content.record record).relate related (.record other)) :
    InStep related (.ok record finish) (.ok other finish')

/-! ## On lists -/

section OnLists

variable {related : α → α → Bool} {fields others : List α}

/-- Alike edits keep lists related, or both lists refuse them. -/
theorem Edit.Alike.onList {edit other : Edit α α} (h : edit.Alike related other)
    (hfields : List.Forall₂ (related · ·) fields others) :
    Option.Rel (List.Forall₂ (related · ·)) (edit.onList fields) (other.onList others) := by
  cases h with
  | prepend hadded => exact .some (List.rel_append (relateEach_iff.mp hadded) hfields)
  | set index hfield =>
    rw [Edit.onList, Edit.onList, ← hfields.length_eq]
    split
    · exact .some (forall₂_set hfields hfield index)
    · exact .none
  | project indices => exact forall₂_mapM hfields indices

/-- Alike moves keep lists related, wherever the flushes are, or both lists refuse one of them. -/
theorem onList_sides {moves : List (Move α)} (h : ∀ move ∈ moves, move.Alike related)
    (hfields : List.Forall₂ (related · ·) fields others) :
    Option.Rel (List.Forall₂ (related · ·)) ((firstSide moves).onList fields)
      ((secondSide moves).onList others) := by
  induction moves generalizing fields others with
  | nil => exact .some hfields
  | cons move rest ih =>
    obtain ⟨hmove, hrest⟩ := List.forall_mem_cons.mp h
    cases move with
    -- A flush on one side leaves its list as it is, so both sides are as far as before.
    | flushFirst => exact ih hrest hfields
    | flushSecond => exact ih hrest hfields
    | both edit other =>
      have hstep := Edit.Alike.onList hmove hfields
      rw [firstSide, secondSide, Edits.onList, Edits.onList]
      generalize edit.onList fields = changed, other.onList others = changed' at hstep ⊢
      cases hstep with
      | none => exact .none
      | some hchanged => exact ih hrest hchanged

end OnLists

/-! ## On records -/

/-- Records that compare equal stay in step under alike moves, whatever is pending on them. -/
theorem inStep_sides {related : α → α → Bool} {record other : Record α} (hrecord : record.Sound)
    (hother : other.Sound) (hequal : (Content.record record).relate related (.record other))
    {moves : List (Move α)} (h : ∀ move ∈ moves, move.Alike related)
    (start start' : Journal ν σ) :
    InStep related ((firstSide moves).run record start) ((secondSide moves).run other start') := by
  have hlists := onList_sides h (relateEach_iff.mp hequal)
  cases hfirst : (firstSide moves).onList record.toList with
  | none =>
    cases hsecond : (secondSide moves).onList other.toList with
    | some _ =>
      rw [hfirst, hsecond] at hlists
      cases hlists
    | none =>
      obtain ⟨broken, stop, hrun⟩ := (firstSide moves).run_of_none hrecord hfirst start
      obtain ⟨broken', stop', hrun'⟩ := (secondSide moves).run_of_none hother hsecond start'
      rw [hrun, hrun']
      exact .refused
  | some fields =>
    cases hsecond : (secondSide moves).onList other.toList with
    | none =>
      rw [hfirst, hsecond] at hlists
      cases hlists
    | some others =>
      rw [hfirst, hsecond] at hlists
      obtain ⟨last, finish, hrun, hlast, -⟩ := (firstSide moves).run_of_some hrecord hfirst start
      obtain ⟨last', finish', hrun', hlast', -⟩ :=
        (secondSide moves).run_of_some hother hsecond start'
      rw [hrun, hrun']
      apply InStep.changed
      cases hlists with
      | some hfields =>
        rw [← hlast, ← hlast'] at hfields
        exact relateEach_iff.mpr hfields

/-- Records that a caller can reach are compared and shown as the rows that their changes make,
which is also what reading them field by field gives. If they compare equal, they stay in step
after any number of alike moves. -/
theorem Record.Reached.compared_as_rows (related : α → α → Bool) (shown : α → Doc)
    {written written' : Bool} {record other : Record α} (hrecord : Reached written record)
    (hother : Reached written' other) :
    (∃ row row', record.toRow = .ok row ∧ record.scan = .ok row.toList ∧
        other.toRow = .ok row' ∧ other.scan = .ok row'.toList ∧
        (Content.record record).relate related (.record other) =
          (Content.row row).relate related (.row row') ∧
        ∀ layout, ((Content.record record).doc shown).render layout =
          ((Content.row row).doc shown).render layout) ∧
      ((Content.record record).relate related (.record other) →
        ∀ moves : List (Move α), (∀ move ∈ moves, move.Alike related) →
          ∀ (count : Nat) (start start' : Journal ν σ),
            InStep related ((firstSide (moves.take count)).run record start)
              ((secondSide (moves.take count)).run other start')) := by
  constructor
  · exact ⟨.ofList record.toList, .ofList other.toList, hrecord.sound.toRow_eq, record.scan_eq,
      hother.sound.toRow_eq, other.scan_eq, rfl, fun _ ↦ rfl⟩
  · intro hequal moves hmoves count
    apply inStep_sides hrecord.sound hother.sound hequal
    exact fun move hmove ↦ hmoves move (List.mem_of_mem_take hmove)

def sameDigit (a b : Nat) : Bool := a % 10 == b % 10

/-- One record has a field prepended, the other was made with all its fields. Both are written to
and prepended to; the second is flushed before that, the first in between. -/
theorem compared_as_rows_prepended_and_whole :
    ∃ record other : Record Nat, record.Reached true ∧ other.Reached false ∧
      (Content.record record).relate sameDigit (.record other) ∧
      ∃ last last' finish finish',
        (Edits.next (.set 1 5) (.next .flush (.next (.prepend [6]) .done))).run record
          (.start () : Journal Unit Unit) = .ok last finish ∧
        (Edits.next .flush (.next (.set 1 15) (.next (.prepend [26]) .done))).run other
          (.start () : Journal Unit Unit) = .ok last' finish' ∧
        (Content.record last).relate sameDigit (.record last') := by
  have hprepended : ((Record.ofList [1, 2, 3]).prepend [4]).Reached true :=
    (Record.Reached.ofList [1, 2, 3]).prepend [4]
  have hwhole : (Record.ofList [14, 1, 22, 3]).Reached false := .ofList _
  have hmoves : ∀ move ∈ [.flushSecond, .both (.set 1 5) (.set 1 15), .flushFirst,
      .both (.prepend [6]) (.prepend [26])], Move.Alike sameDigit move := by
    simp only [List.forall_mem_cons]
    exact ⟨trivial, .set 1 rfl, trivial, .prepend rfl, nofun⟩
  obtain ⟨-, hinStep⟩ := hprepended.compared_as_rows sameDigit (fun n ↦ .atom (toString n)) hwhole
  have hlast := hinStep rfl _ hmoves 4 (.start () : Journal Unit Unit) (.start ())
  refine ⟨_, _, hprepended, hwhole, rfl, _, _, _, _, rfl, rfl, ?_⟩
  cases hlast with
  | changed hequal => exact hequal

end PositionalRecord
