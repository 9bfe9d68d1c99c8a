import PositionalRecord.Proofs.Changes
import PositionalRecord.Proofs.LastWrites
import PositionalRecord.Record.Traverse
import PositionalRecord.Value.Content

/-!
# What pending changes keep of their history

Collected changes keep two stores: a buffer of prepended fields and the overwrites of the row's own
fields. A position means another place of the buffer, or another field of the row, after each
prepend, and a write goes to one store or the other. From the whole history of prepends and writes
it is known what both stores hold in the end: every write stands, at the row to which its field has
come or under the position that the field has in the row itself.
-/

namespace PositionalRecord

variable {α : Type}

/-! ## Overwrites after a history of writes -/

namespace Overwrites

/-- Writes one value after the other. -/
def putAll (overwrites : Overwrites α) (updates : List (Nat × α)) : Overwrites α :=
  updates.foldl (fun overwrites update ↦ overwrites.put update.1 update.2) overwrites

theorem putAll_concat (overwrites : Overwrites α) (updates : List (Nat × α)) (update : Nat × α) :
    overwrites.putAll (updates ++ [update]) = (overwrites.putAll updates).put update.1 update.2 :=
  List.foldl_concat _ _ _ _

/-- Under each key stands the last value written there. -/
theorem find?_putAll (updates : List (Nat × α)) (key : Nat) :
    (empty.putAll updates).find? key = lastWrite? updates key := by
  induction updates using List.reverseRecOn with
  | nil => rfl
  | append_singleton front update ih =>
    rw [putAll_concat, find?_put, ih]
    exact (lastWrite?_concat front update.1 update.2 key).symm

theorem eraseDups_concat (keys : List Nat) (key : Nat) :
    (keys ++ [key]).eraseDups = if key ∈ keys then keys.eraseDups else keys.eraseDups ++ [key] := by
  rw [List.eraseDups_append]
  by_cases hkey : key ∈ keys
  · have hold : [key].removeAll keys = [] := by simp [List.removeAll, hkey]
    rw [hold, if_pos hkey, List.eraseDups_nil, List.append_nil]
  · have hnew : [key].removeAll keys = [key] := by simp [List.removeAll, hkey]
    rw [hnew, if_neg hkey, List.eraseDups_cons, List.filter_nil, List.eraseDups_nil]

/-- A key is listed where it was written first. -/
theorem keys_putAll (updates : List (Nat × α)) :
    (empty.putAll updates).keys = (updates.map Prod.fst).eraseDups := by
  induction updates using List.reverseRecOn with
  | nil => rfl
  | append_singleton front update ih =>
    rw [putAll_concat, keys_put, ih, List.map_append, List.map_singleton, eraseDups_concat]
    simp only [List.mem_eraseDups]

/-- Overwrites without a repeated key are listed by their keys. -/
theorem entries_eq {overwrites : Overwrites α} (h : overwrites.keys.Nodup) :
    overwrites.entries =
      overwrites.keys.filterMap fun key ↦ (overwrites.find? key).map (key, ·) := by
  obtain ⟨entries⟩ := overwrites
  induction entries with
  | nil => rfl
  | cons entry rest ih =>
    obtain ⟨key, value⟩ := entry
    obtain ⟨hkey, hrest⟩ := List.nodup_cons.mp h
    have hlater : ∀ other ∈ rest.map Prod.fst,
        ((⟨(key, value) :: rest⟩ : Overwrites α).find? other).map (other, ·) =
          ((⟨rest⟩ : Overwrites α).find? other).map (other, ·) := by
      intro other hother
      have hne : other ≠ key := fun hsame ↦ hkey (hsame ▸ hother)
      rw [find?, List.lookup_cons, beq_false_of_ne hne]
      rfl
    have hfirst : (⟨(key, value) :: rest⟩ : Overwrites α).find? key = some value := by
      rw [find?, List.lookup_cons, beq_self_eq_true]
    rw [keys, List.map_cons, List.filterMap_cons, hfirst, List.filterMap_congr hlater]
    exact congrArg ((key, value) :: ·) (ih hrest)

end Overwrites

namespace Change

/-! ## The two stores -/

/-- All prepended fields in row order: what was prepended last comes first. -/
def inserted : List (Change α) → List α
  | [] => []
  | .prepend fields :: rest => inserted rest ++ fields
  | .set _ _ :: rest => inserted rest

/-- The writes of prepended fields, in order, each at the row to which its field comes: everything
that is prepended later stands before it. -/
def frontWrites : List (Change α) → Nat → List (Nat × α)
  | [], _ => []
  | .prepend fields :: rest, prepended => frontWrites rest (fields.length + prepended)
  | .set index field :: rest, prepended =>
    if index < prepended then
      ((inserted rest).length + index, field) :: frontWrites rest prepended
    else frontWrites rest prepended

/-- The writes of the row's own fields, in order, each under the position of its field in the row:
what is prepended by then is not counted. -/
def ownWrites : List (Change α) → Nat → List (Nat × α)
  | [], _ => []
  | .prepend fields :: rest, prepended => ownWrites rest (fields.length + prepended)
  | .set index field :: rest, prepended =>
    if index < prepended then ownWrites rest prepended
    else (index - prepended, field) :: ownWrites rest prepended

theorem map_fst_ownWrites (changes : List (Change α)) (prepended : Nat) :
    (ownWrites changes prepended).map Prod.fst = writtenKeys changes prepended := by
  induction changes generalizing prepended with
  | nil => rfl
  | cons change rest ih =>
    cases change with
    | prepend fields => exact ih _
    | set index field =>
      rw [ownWrites, writtenKeys]
      by_cases hindex : index < prepended
      · rw [if_pos hindex, if_pos hindex, ih]
      · rw [if_neg hindex, if_neg hindex, List.map_cons, ih]

/-- The buffer after more changes: what they prepend comes before it, and a write of a prepended
field stands at the row to which the field has come. -/
theorem fields_foldl (changes : List (Change α)) (pending : Pending α) :
    (changes.foldl defer pending).fields =
      Row.written (inserted changes ++ pending.fields)
        (frontWrites changes pending.prepended) := by
  induction changes generalizing pending with
  | nil => rfl
  | cons change rest ih =>
    rw [List.foldl_cons, ih]
    cases change with
    | prepend fields =>
      rw [defer, Pending.fields_prepend, Pending.prepended_prepend, inserted, frontWrites,
        List.append_assoc]
    | set index field =>
      rw [defer, Pending.prepended_set, inserted, frontWrites]
      by_cases hindex : index < pending.prepended
      · rw [if_pos hindex, Row.written_cons, Pending.fields_set_of_lt hindex,
          List.set_append_right _ _ (Nat.le_add_right _ _), Nat.add_sub_cancel_left]
      · rw [if_neg hindex, Pending.set_of_le (Nat.le_of_not_lt hindex)]
        rfl

theorem overwrites_foldl (changes : List (Change α)) (pending : Pending α) :
    (changes.foldl defer pending).overwrites =
      pending.overwrites.putAll (ownWrites changes pending.prepended) := by
  induction changes generalizing pending with
  | nil => rfl
  | cons change rest ih =>
    rw [List.foldl_cons, ih]
    cases change with
    | prepend fields =>
      rw [defer, Pending.overwrites_prepend, Pending.prepended_prepend, ownWrites]
    | set index field =>
      rw [defer, Pending.prepended_set, ownWrites]
      by_cases hindex : index < pending.prepended
      · rw [if_pos hindex, Pending.overwrites_set_of_lt hindex]
      · rw [if_neg hindex, Pending.set_of_le (Nat.le_of_not_lt hindex)]
        rfl

/-- Nothing is pending as long as nothing was written and only nothing was prepended. -/
theorem isEmpty_foldl (changes : List (Change α)) (pending : Pending α) :
    (changes.foldl defer pending).isEmpty = true ↔
      pending.isEmpty = true ∧ ∀ change ∈ changes, change = .prepend [] := by
  induction changes generalizing pending with
  | nil => simp
  | cons change rest ih =>
    rw [List.foldl_cons, ih, List.forall_mem_cons]
    cases change with
    | prepend fields => simp [defer, and_assoc]
    | set index field => simp [defer]

/-! ## The whole history -/

/-- What collected changes keep of the changes: the number of all prepended fields; these fields
with the writes that reached them; each position of the row that was written, once and in the order
of first writes, with the last value written there; and whether there was any change at all. The
text and the report of the changes show the same. -/
structure Bookkeeping (changes : List (Change α)) : Prop where
  prepended_eq : (deferAll changes).prepended = (inserted changes).length
  buffer_eq : (deferAll changes).buffer.toList.reverse =
    Row.written (inserted changes) (frontWrites changes 0)
  nodup_keys : (deferAll changes).overwrites.keys.Nodup
  keys_eq : (deferAll changes).overwrites.keys = (writtenKeys changes 0).eraseDups
  entries_eq : (deferAll changes).overwrites.entries =
    (writtenKeys changes 0).eraseDups.filterMap fun key ↦
      (lastWrite? (ownWrites changes 0) key).map (key, ·)
  isEmpty_iff : (deferAll changes).isEmpty = true ↔ ∀ change ∈ changes, change = .prepend []
  doc_eq (shown : α → Doc) : Content.pendingDoc shown (deferAll changes) =
    .fields "Diff"
      [("updated", .entries ((writtenKeys changes 0).eraseDups.filterMap fun key ↦
        (lastWrite? (ownWrites changes 0) key).map fun value ↦ (key, shown value))),
       ("new", .atom (toString (inserted changes).length ++ " new"))]
  receipt_eq (row : Row α) : (deferAll changes).receipt row =
    .flush (writtenKeys changes 0).eraseDups.length (inserted changes).length row.length

/-- The state of pending changes is known from their history. -/
theorem bookkeeping (changes : List (Change α)) : Bookkeeping changes := by
  have hfields : (deferAll changes).fields =
      Row.written (inserted changes) (frontWrites changes 0) := by
    have h := fields_foldl changes .empty
    rwa [Pending.fields_empty, List.append_nil] at h
  have hoverwrites : (deferAll changes).overwrites =
      Overwrites.empty.putAll (ownWrites changes 0) := overwrites_foldl changes .empty
  have hprepended : (deferAll changes).prepended = (inserted changes).length := by
    calc
      (deferAll changes).prepended = (deferAll changes).fields.length :=
        (Pending.length_fields _).symm
      _ = (Row.written (inserted changes) (frontWrites changes 0)).length := by rw [hfields]
      _ = (inserted changes).length := Row.length_written _ _
  have hnodup : (deferAll changes).overwrites.keys.Nodup := nodup_keys_foldl changes List.nodup_nil
  have hkeys : (deferAll changes).overwrites.keys = (writtenKeys changes 0).eraseDups := by
    rw [hoverwrites, Overwrites.keys_putAll, map_fst_ownWrites]
  have hentries : (deferAll changes).overwrites.entries =
      (writtenKeys changes 0).eraseDups.filterMap fun key ↦
        (lastWrite? (ownWrites changes 0) key).map (key, ·) := by
    calc
      (deferAll changes).overwrites.entries =
          (deferAll changes).overwrites.keys.filterMap fun key ↦
            ((deferAll changes).overwrites.find? key).map (key, ·) := Overwrites.entries_eq hnodup
      _ = _ := by
        rw [hkeys, hoverwrites]
        simp only [Overwrites.find?_putAll]
  refine ⟨hprepended, hfields, hnodup, hkeys, hentries, ?_, ?_, ?_⟩
  · exact (isEmpty_foldl changes .empty).trans (and_iff_right rfl)
  · intro shown
    rw [Content.pendingDoc, Overwrites.map, hentries, hprepended, List.map_filterMap]
    simp only [Option.map_map]
    rfl
  · intro row
    rw [Pending.receipt, hprepended, ← Overwrites.length_keys, hkeys]

/-- The first field of a row is written, also behind a prepended field, and after it the last one;
the prepended field is written before and after another prepend. -/
theorem bookkeeping_prepended_between :
    let changes : List (Change Nat) :=
      [.set 0 5, .prepend [4], .set 0 6, .set 3 7, .prepend [2, 3], .set 3 8, .set 2 9, .set 1 1]
    (deferAll changes).prepended = 3 ∧
      (deferAll changes).buffer.toList.reverse = [2, 1, 9] ∧
      (deferAll changes).overwrites.entries = [(0, 8), (2, 7)] ∧
      (deferAll changes).isEmpty = false := by
  intro changes
  have hbooks := bookkeeping changes
  refine ⟨hbooks.prepended_eq, hbooks.buffer_eq, ?_, ?_⟩
  · exact hbooks.entries_eq.trans (by decide)
  · rw [← Bool.not_eq_true, hbooks.isEmpty_iff]
    simp [changes]

end Change

end PositionalRecord
