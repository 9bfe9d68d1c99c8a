import PositionalRecord.Value.Content

/-!
# Values

A `Value` is what stands in the fields of a record: a content of any kind, kept in a cell of its
own. Copying a value keeps the cell, so the cell tells whether two values are copies of one
another. A sealed value shows its kind and nothing else.

Values inside a value may be shared many times over, so that a small value can stand for a huge
tree. `Value.fold` is the recursion over a value; it works out what is stored inside only on
demand, and `fold_eq` is its one equation. `Value.rec_stored` is the induction that goes with it.
-/

namespace PositionalRecord

/-- A content in a cell, sealed or not. -/
structure Value where
  cell : Nat
  isSealed : Bool
  content : Content Value

namespace Value

instance : Inhabited Value := ⟨0, false, .scalar .unit⟩

def kind (value : Value) : Kind := value.content.kind

def label (value : Value) : String := value.kind.label

/-- Whether a value can neither be shown nor compared. -/
def isHidden (value : Value) : Bool := value.isSealed || value.content.isPending

/-- Whether two values are copies of one another. -/
def identical (left right : Value) : Bool := left.cell == right.cell

/-! ## What is stored is smaller -/

theorem sizeOf_lt_of_mem_slots {value : Value} {slots : Array Value}
    (h : value ∈ slots.toList) : sizeOf value < sizeOf slots :=
  Array.sizeOf_lt_of_mem (Array.mem_toList_iff.mp h)

theorem sizeOf_lt_of_mem_values {value : Value} {entries : List (Nat × Value)}
    (h : value ∈ entries.map Prod.snd) : sizeOf value < sizeOf entries := by
  obtain ⟨⟨key, _⟩, hmem, rfl⟩ := List.mem_map.mp h
  have := List.sizeOf_lt_of_mem hmem
  simp only [Prod.mk.sizeOf_spec] at this ⊢
  omega

/-- What is stored in a content is smaller than the content. -/
theorem sizeOf_lt_of_mem_stored {value : Value} {content : Content Value}
    (h : value ∈ content.stored) : sizeOf value < sizeOf content := by
  cases content with
  | scalar s => simp [Content.stored] at h
  | boxed v => simp_all [Content.stored]
  | list vs =>
    have := List.sizeOf_lt_of_mem (show value ∈ vs from h)
    simp only [Content.list.sizeOf_spec]
    omega
  | pair left right =>
    simp only [Content.stored, List.mem_cons, List.not_mem_nil, or_false] at h
    rcases h with rfl | rfl <;> simp only [Content.pair.sizeOf_spec] <;> omega
  | option v =>
    obtain rfl : v = some value := by simpa [Content.stored] using h
    simp only [Content.option.sizeOf_spec, Option.some.sizeOf_spec]
    omega
  | constant k =>
    obtain ⟨v⟩ := k
    obtain rfl : value = v := by simpa [Content.stored] using h
    simp only [Content.constant.sizeOf_spec, Constant.mk.sizeOf_spec]
    omega
  | row r =>
    obtain ⟨slots⟩ := r
    have := sizeOf_lt_of_mem_slots (show value ∈ slots.toList from h)
    simp only [Content.row.sizeOf_spec, Row.mk.sizeOf_spec]
    omega
  | constants r =>
    obtain ⟨slots⟩ := r
    obtain ⟨⟨v⟩, hmem, rfl⟩ := List.mem_map.mp h
    have := Array.sizeOf_lt_of_mem (Array.mem_toList_iff.mp hmem)
    simp only [Content.constants.sizeOf_spec, Row.mk.sizeOf_spec, Constant.mk.sizeOf_spec] at *
    omega
  | record r =>
    obtain ⟨⟨slots⟩, ⟨⟨entries⟩, buffer⟩⟩ := r
    simp only [Content.stored, Overwrites.values, List.mem_append] at h
    simp only [Content.record.sizeOf_spec, Record.mk.sizeOf_spec, Row.mk.sizeOf_spec,
      Pending.mk.sizeOf_spec, Overwrites.mk.sizeOf_spec]
    rcases h with (h | h) | h
    · have := sizeOf_lt_of_mem_slots (show value ∈ slots.toList from h)
      omega
    · have := sizeOf_lt_of_mem_values h
      omega
    · have := sizeOf_lt_of_mem_slots h
      omega
  | pending p =>
    obtain ⟨⟨entries⟩, buffer⟩ := p
    simp only [Content.stored, Overwrites.values, List.mem_append] at h
    simp only [Content.pending.sizeOf_spec, Pending.mk.sizeOf_spec, Overwrites.mk.sizeOf_spec]
    rcases h with h | h
    · have := sizeOf_lt_of_mem_values h
      omega
    · have := sizeOf_lt_of_mem_slots h
      omega

/-- What is stored in the content of a value is smaller than the value. -/
theorem sizeOf_lt {value stored : Value} (h : stored ∈ value.content.stored) :
    sizeOf stored < sizeOf value := by
  obtain ⟨cell, isSealed, content⟩ := value
  have := sizeOf_lt_of_mem_stored h
  simp only [Value.mk.sizeOf_spec] at *
  omega

/-! ## Recursion -/

/-- Works a value out: `f` sees the cell of each value, its seal, and its content, in which each
stored value is replaced by what is made of it. That is made only when asked for, so what `f` does
not look at costs nothing, however often values are shared inside. -/
def fold {β : Type} (f : Nat → Bool → Content (Unit → β) → β) : Value → β
  | ⟨cell, isSealed, .scalar s⟩ => f cell isSealed (.scalar s)
  | ⟨cell, isSealed, .boxed v⟩ => f cell isSealed (.boxed fun _ ↦ fold f v)
  | ⟨cell, isSealed, .list vs⟩ => f cell isSealed (.list (vs.map fun v _ ↦ fold f v))
  | ⟨cell, isSealed, .pair left right⟩ =>
    f cell isSealed (.pair (fun _ ↦ fold f left) (fun _ ↦ fold f right))
  | ⟨cell, isSealed, .option none⟩ => f cell isSealed (.option none)
  | ⟨cell, isSealed, .option (some v)⟩ => f cell isSealed (.option (some fun _ ↦ fold f v))
  | ⟨cell, isSealed, .constant k⟩ => f cell isSealed (.constant ⟨fun _ ↦ fold f k.inner⟩)
  | ⟨cell, isSealed, .row r⟩ => f cell isSealed (.row ⟨r.slots.map fun v _ ↦ fold f v⟩)
  | ⟨cell, isSealed, .constants r⟩ =>
    f cell isSealed (.constants ⟨r.slots.map fun k ↦ ⟨fun _ ↦ fold f k.inner⟩⟩)
  | ⟨cell, isSealed, .record r⟩ =>
    f cell isSealed (.record ⟨⟨r.row.slots.map fun v _ ↦ fold f v⟩,
      ⟨⟨r.pending.overwrites.entries.map fun entry ↦ (entry.1, fun _ ↦ fold f entry.2)⟩,
        r.pending.buffer.map fun v _ ↦ fold f v⟩⟩)
  | ⟨cell, isSealed, .pending p⟩ =>
    f cell isSealed (.pending
      ⟨⟨p.overwrites.entries.map fun entry ↦ (entry.1, fun _ ↦ fold f entry.2)⟩,
        p.buffer.map fun v _ ↦ fold f v⟩)
termination_by value => sizeOf value
decreasing_by
  all_goals
    refine sizeOf_lt ?_
    grind [Content.stored, Overwrites.values, Row.toList, Row.collapse]

/-- Folding a value is finishing with its content, each stored value folded on demand. -/
theorem fold_eq {β : Type} (f : Nat → Bool → Content (Unit → β) → β) (value : Value) :
    value.fold f =
      f value.cell value.isSealed (value.content.map fun stored _ ↦ stored.fold f) := by
  obtain ⟨cell, isSealed, content⟩ := value
  cases content with
  | option v => cases v <;> rw [fold] <;> rfl
  | _ => rw [fold]; rfl

/-- Induction over values: a property that passes from all values stored in a content to every
value with that content holds of all values. -/
theorem rec_stored {motive : Value → Prop}
    (step : ∀ value : Value, (∀ stored ∈ value.content.stored, motive stored) → motive value)
    (value : Value) : motive value :=
  step value fun stored _ ↦ rec_stored step stored
termination_by sizeOf value
decreasing_by exact sizeOf_lt ‹_›

end Value

end PositionalRecord
