/-!
# Overwrites by key

Pending overwrites keep their values under keys, in the order in which the keys were first
written. Writing a key again changes its value and not its place.
-/

namespace PositionalRecord

/-- Values under keys, in the order of the first write of each key. -/
structure Overwrites (α : Type) where
  entries : List (Nat × α)
deriving DecidableEq

namespace Overwrites

variable {α β : Type}

def empty : Overwrites α := ⟨[]⟩

def length (overwrites : Overwrites α) : Nat := overwrites.entries.length

def isEmpty (overwrites : Overwrites α) : Bool := overwrites.entries.isEmpty

def keys (overwrites : Overwrites α) : List Nat := overwrites.entries.map Prod.fst

def values (overwrites : Overwrites α) : List α := overwrites.entries.map Prod.snd

/-- The value last written under `key`. -/
def find? (overwrites : Overwrites α) (key : Nat) : Option α := overwrites.entries.lookup key

/-- Writes `value` under `key`, in the place of the key's first write. -/
def putEntry (key : Nat) (value : α) : List (Nat × α) → List (Nat × α)
  | [] => [(key, value)]
  | entry :: rest =>
    if entry.1 = key then (key, value) :: rest else entry :: putEntry key value rest

def put (overwrites : Overwrites α) (key : Nat) (value : α) : Overwrites α :=
  ⟨putEntry key value overwrites.entries⟩

def map (f : α → β) (overwrites : Overwrites α) : Overwrites β :=
  ⟨overwrites.entries.map fun entry ↦ (entry.1, f entry.2)⟩

/-- The list with every field replaced by what is written under its position. -/
def overlay (overwrites : Overwrites α) (fields : List α) : List α :=
  fields.mapIdx fun index field ↦ (overwrites.find? index).getD field

/-! ## Acting on the values -/

theorem find?_map (f : α → β) (overwrites : Overwrites α) (key : Nat) :
    (overwrites.map f).find? key = (overwrites.find? key).map f := by
  obtain ⟨entries⟩ := overwrites
  simp only [map, find?]
  induction entries with
  | nil => rfl
  | cons entry rest ih =>
    obtain ⟨first, value⟩ := entry
    simp only [List.map_cons, List.lookup_cons, ih]
    split <;> rfl

theorem overlay_map (f : α → β) (overwrites : Overwrites α) (fields : List α) :
    (overwrites.map f).overlay (fields.map f) = (overwrites.overlay fields).map f := by
  apply List.ext_getElem?
  intro index
  simp only [overlay, List.getElem?_mapIdx, List.getElem?_map, find?_map]
  cases fields[index]? <;> cases overwrites.find? index <;> rfl

end Overwrites

end PositionalRecord
