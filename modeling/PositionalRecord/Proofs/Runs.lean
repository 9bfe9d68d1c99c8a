import PositionalRecord.Run

/-!
# Laws of runs

A run goes on from the journal that its first part leaves behind, and stops with the first fault.
-/

namespace PositionalRecord.Run

variable {ν σ α β : Type}

theorem bind_ok {first : Run ν σ α} {start middle : Journal ν σ} {answer : α}
    (h : first start = .ok answer middle) (next : α → Run ν σ β) :
    (first >>= next) start = next answer middle := by
  change EStateM.bind first next start = _
  rw [EStateM.bind, h]

theorem bind_error {first : Run ν σ α} {start stop : Journal ν σ} {fault : Fault}
    (h : first start = .error fault stop) (next : α → Run ν σ β) :
    (first >>= next) start = .error fault stop := by
  change EStateM.bind first next start = _
  rw [EStateM.bind, h]

theorem map_ok {run : Run ν σ α} {start finish : Journal ν σ} {answer : α}
    (h : run start = .ok answer finish) (f : α → β) :
    (f <$> run) start = .ok (f answer) finish := by
  change EStateM.map f run start = _
  rw [EStateM.map, h]

theorem map_error {run : Run ν σ α} {start stop : Journal ν σ} {fault : Fault}
    (h : run start = .error fault stop) (f : α → β) :
    (f <$> run) start = .error fault stop := by
  change EStateM.map f run start = _
  rw [EStateM.map, h]

/-- What a mapped run gives depends only on what the run gives. -/
theorem map_congr {first second : Run ν σ α} {start other : Journal ν σ}
    (h : first start = second other) (f : α → β) : (f <$> first) start = (f <$> second) other := by
  change EStateM.map f first start = EStateM.map f second other
  rw [EStateM.map, EStateM.map, h]

/-- A mapped run answers only if the run does. -/
theorem of_map_ok {run : Run ν σ α} {start finish : Journal ν σ} {f : α → β} {image : β}
    (h : (f <$> run) start = .ok image finish) :
    ∃ answer, run start = .ok answer finish ∧ f answer = image := by
  change EStateM.map f run start = _ at h
  rw [EStateM.map] at h
  cases hrun : run start with
  | ok answer middle =>
    rw [hrun] at h
    cases h
    exact ⟨answer, rfl, rfl⟩
  | error fault stop =>
    rw [hrun] at h
    cases h

end PositionalRecord.Run
