import PositionalRecord.Pending.Overwrites
import Mathlib.Data.List.Nodup

/-!
# Laws of overwrites by key

Writing under a key changes what is found under that key and nothing else, and keeps the place of
a key that was written before. Two readings of the overwrites of a list agree as long as no key
stands twice: overlaying all of them at once, and making them one after the other in the order of
their entries.
-/

namespace PositionalRecord.Overwrites

variable {α : Type}

/-! ## What is found -/

@[simp]
theorem find?_empty (key : Nat) : (empty : Overwrites α).find? key = none := rfl

theorem lookup_putEntry (key : Nat) (value : α) (entries : List (Nat × α)) (other : Nat) :
    (putEntry key value entries).lookup other =
      if other = key then some value else entries.lookup other := by
  induction entries with
  | nil =>
    by_cases hother : other = key
    · simp [putEntry, hother]
    · simp [putEntry, List.lookup_cons, beq_false_of_ne hother, hother]
  | cons entry rest ih =>
    obtain ⟨first, old⟩ := entry
    by_cases hfirst : first = key
    · subst hfirst
      simp only [putEntry, if_true, List.lookup_cons]
      by_cases hother : other = first
      · simp [hother]
      · simp [beq_false_of_ne hother, hother]
    · simp only [putEntry, if_neg hfirst, List.lookup_cons, ih]
      by_cases hother : other = first
      · subst hother
        simp [hfirst]
      · simp [beq_false_of_ne hother]

/-- Writing under a key changes what is found under it, and nothing else. -/
theorem find?_put (overwrites : Overwrites α) (key : Nat) (value : α) (other : Nat) :
    (overwrites.put key value).find? other =
      if other = key then some value else overwrites.find? other :=
  lookup_putEntry key value overwrites.entries other

theorem find?_eq_none_iff (overwrites : Overwrites α) (key : Nat) :
    overwrites.find? key = none ↔ key ∉ overwrites.keys := by
  unfold find? keys
  simp only [List.lookup_eq_none_iff, List.mem_map, not_exists, not_and]
  constructor
  · intro h entry hmem hkey
    simpa [hkey] using h entry hmem
  · intro h entry hmem
    simpa using Ne.symm (h entry hmem)

/-! ## Keys -/

@[simp]
theorem length_keys (overwrites : Overwrites α) : overwrites.keys.length = overwrites.length := by
  simp [keys, length]

theorem map_fst_putEntry (key : Nat) (value : α) (entries : List (Nat × α)) :
    (putEntry key value entries).map Prod.fst =
      if key ∈ entries.map Prod.fst then entries.map Prod.fst
      else entries.map Prod.fst ++ [key] := by
  induction entries with
  | nil => rfl
  | cons entry rest ih =>
    by_cases hfirst : entry.1 = key
    · simp [putEntry, hfirst]
    · simp only [putEntry, if_neg hfirst, List.map_cons, ih, List.mem_cons, Ne.symm hfirst,
        false_or]
      split <;> rfl

/-- A key keeps its place when it is written again; a new key comes last. -/
theorem keys_put (overwrites : Overwrites α) (key : Nat) (value : α) :
    (overwrites.put key value).keys =
      if key ∈ overwrites.keys then overwrites.keys else overwrites.keys ++ [key] :=
  map_fst_putEntry key value overwrites.entries

theorem mem_keys_put (overwrites : Overwrites α) (key : Nat) (value : α) (other : Nat) :
    other ∈ (overwrites.put key value).keys ↔ other = key ∨ other ∈ overwrites.keys := by
  rw [keys_put]
  split
  next hmem =>
    constructor
    · exact Or.inr
    · rintro (rfl | hother)
      · exact hmem
      · exact hother
  next => rw [List.mem_append, List.mem_singleton, or_comm]

theorem nodup_keys_put {overwrites : Overwrites α} (h : overwrites.keys.Nodup) (key : Nat)
    (value : α) : (overwrites.put key value).keys.Nodup := by
  rw [keys_put]
  split
  next => exact h
  next hmem =>
    rw [List.nodup_append_comm]
    exact List.nodup_cons.mpr ⟨hmem, h⟩

/-- Whatever is looked for among the keys, writing under a key is appending it: a key that stands
there already is found at its first place. -/
theorem find?_keys_put (overwrites : Overwrites α) (key : Nat) (value : α) (wanted : Nat → Bool) :
    (overwrites.put key value).keys.find? wanted = (overwrites.keys ++ [key]).find? wanted := by
  rw [keys_put]
  split
  next hmem =>
    rw [List.find?_append]
    cases hfound : overwrites.keys.find? wanted with
    | some found => rfl
    | none =>
      have hkey : ¬ wanted key = true := List.find?_eq_none.mp hfound key hmem
      simp [List.find?_cons_of_neg hkey]
  next => rfl

@[simp]
theorem isEmpty_put (overwrites : Overwrites α) (key : Nat) (value : α) :
    (overwrites.put key value).isEmpty = false := by
  obtain ⟨entries⟩ := overwrites
  cases entries with
  | nil => rfl
  | cons entry rest =>
    simp only [put, isEmpty, putEntry]
    split <;> rfl

/-! ## Overlaying -/

theorem getElem?_overlay (overwrites : Overwrites α) (fields : List α) (index : Nat) :
    (overwrites.overlay fields)[index]? =
      fields[index]?.map fun field ↦ (overwrites.find? index).getD field := by
  unfold overlay
  exact List.getElem?_mapIdx

@[simp]
theorem length_overlay (overwrites : Overwrites α) (fields : List α) :
    (overwrites.overlay fields).length = fields.length := by
  unfold overlay
  exact List.length_mapIdx

@[simp]
theorem overlay_empty (fields : List α) : empty.overlay fields = fields := by
  apply List.ext_getElem?
  intro index
  simp [getElem?_overlay]

/-- One more overwrite is one more field replaced. A position past the end changes nothing on
either side. -/
theorem overlay_put (overwrites : Overwrites α) (key : Nat) (value : α) (fields : List α) :
    (overwrites.put key value).overlay fields = (overwrites.overlay fields).set key value := by
  apply List.ext_getElem?
  intro index
  rw [getElem?_overlay, find?_put, List.getElem?_set, getElem?_overlay, length_overlay]
  by_cases hindex : index = key
  · subst hindex
    by_cases hbound : index < fields.length
    · simp [hbound]
    · simp [hbound]
  · rw [if_neg hindex, if_neg (Ne.symm hindex)]

/-! ## Where values come from -/

theorem mem_values_of_find? {overwrites : Overwrites α} {key : Nat} {value : α}
    (h : overwrites.find? key = some value) : value ∈ overwrites.values := by
  obtain ⟨front, back, hentries, -⟩ := List.lookup_eq_some_iff.mp h
  rw [values, hentries]
  simp

/-- Every field of an overlaid list stood in the list before or is written by an overwrite. -/
theorem overlay_subset (overwrites : Overwrites α) (fields : List α) :
    overwrites.overlay fields ⊆ fields ++ overwrites.values := by
  intro field hfield
  obtain ⟨index, hindex, rfl⟩ := List.mem_mapIdx.mp hfield
  rw [List.mem_append]
  cases hfind : overwrites.find? index with
  | some value => exact .inr (mem_values_of_find? hfind)
  | none => exact .inl (List.getElem_mem hindex)

end PositionalRecord.Overwrites
