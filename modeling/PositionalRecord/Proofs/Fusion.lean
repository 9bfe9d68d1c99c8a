import PositionalRecord.Proofs.Synchrony

/-!
# Fusion of attempts

Two functions that may fail can be tried on a row in two passes, or in one pass that tries both on
a field before it goes on to the next. Both forms go through on the same rows, with the same
outcome, but they may stop at different failures: two passes stop at the first function's least
failing row before the second function is tried at all, one pass stops at the least row where
either fails. Which failure is meant is settled by functions that say in their failures which of
the two they are and on which row they failed, and that otherwise do the same.
-/

namespace PositionalRecord

variable {α β γ ε : Type}

/-! ## One attempt after another -/

theorem bind_eq_error_iff {attempted : Except ε α} {f : α → Except ε β} {failed : ε} :
    attempted >>= f = .error failed ↔
      attempted = .error failed ∨ ∃ output, attempted = .ok output ∧ f output = .error failed := by
  cases attempted with
  | error held => simp [bind, Except.bind]
  | ok output => simp [bind, Except.bind]

theorem bind_eq_ok_iff {attempted : Except ε α} {f : α → Except ε β} {last : β} :
    attempted >>= f = .ok last ↔ ∃ output, attempted = .ok output ∧ f output = .ok last := by
  cases attempted with
  | error held => simp [bind, Except.bind]
  | ok output => simp [bind, Except.bind]

/-- Outputs of both functions are the outputs of the second on those of the first. -/
theorem map_bind_eq_ok_iff {f : α → Except ε β} {g : β → Except ε γ} {items : List α}
    {last : List γ} :
    items.map (fun item ↦ f item >>= g) = last.map .ok ↔
      ∃ middle : List β, items.map f = middle.map .ok ∧ middle.map g = last.map .ok := by
  induction items generalizing last with
  | nil =>
    constructor
    · exact fun h ↦ ⟨[], rfl, h⟩
    · rintro ⟨middle, hmiddle, hlast⟩
      rw [List.map_nil, List.nil_eq, List.map_eq_nil_iff] at hmiddle
      rwa [hmiddle] at hlast
  | cons item rest ih =>
    constructor
    · intro h
      cases last with
      | nil => cases h
      | cons field fields =>
        rw [List.map_cons, List.map_cons, List.cons.injEq, bind_eq_ok_iff, ih] at h
        obtain ⟨⟨output, houtput, hfield⟩, middle, hmiddle, hfields⟩ := h
        refine ⟨output :: middle, ?_, ?_⟩
        · rw [List.map_cons, List.map_cons, houtput, hmiddle]
        · rw [List.map_cons, List.map_cons, hfield, hfields]
    · rintro ⟨middle, hmiddle, hlast⟩
      cases middle with
      | nil => cases hmiddle
      | cons output outputs =>
        rw [List.map_cons, List.map_cons, List.cons.injEq] at hmiddle
        cases last with
        | nil => cases hlast
        | cons field fields =>
          rw [List.map_cons, List.map_cons, List.cons.injEq] at hlast
          rw [List.map_cons, List.map_cons, ih.mpr ⟨outputs, hmiddle.2, hlast.2⟩, hmiddle.1]
          exact congrArg (· :: fields.map .ok) hlast.1

namespace Row

/-! ## Attempts on rows -/

/-- Tries `f` on every field in order: the row of the outputs, or the first failure. -/
def attempt (f : α → Except ε β) (row : Row α) : Except ε (Row β) :=
  Id.run (row.traverse fun field ↦ pure (f field))

/-- In any monad, a traversal whose calls only try `f` is an attempt. -/
theorem traverse_pure_eq_attempt {m : Type → Type} [Monad m] [LawfulMonad m]
    (f : α → Except ε β) (row : Row α) :
    row.traverse (fun field ↦ (pure (f field) : m (Except ε β))) = pure (row.attempt f) := by
  rw [attempt, traverse_pure, traverse_pure, Id.run_pure]

/-- Tries `f` on every field, and only then `g` on every output. -/
def attemptTwice (f : α → Except ε β) (g : β → Except ε γ) (row : Row α) : Except ε (Row γ) := do
  (← row.attempt f).attempt g

/-- Tries on every field first `f` and then `g` on the output. -/
def attemptFused (f : α → Except ε β) (g : β → Except ε γ) (row : Row α) : Except ε (Row γ) :=
  row.attempt fun field ↦ f field >>= g

/-- On row `k` there is a field where `f` fails, and this is its failure. -/
def FailsAt (f : α → Except ε β) (row : Row α) (k : Nat) (failed : ε) : Prop :=
  ∃ field, row.toList[k]? = some field ∧ f field = .error failed

/-- The least row where `f` fails is `k`, and this is its failure there. -/
def FailsFirst (f : α → Except ε β) (row : Row α) (k : Nat) (failed : ε) : Prop :=
  row.FailsAt f k failed ∧
    ∀ j < k, ∃ field, row.toList[j]? = some field ∧ ∃ output, f field = .ok output

theorem firstError_map_eq_some_iff {f : α → Except ε β} {row : Row α} {k : Nat} {failed : ε} :
    firstError (row.toList.map f) = some (k, failed) ↔ row.FailsFirst f k failed := by
  rw [firstError_eq_some_iff, FailsFirst, FailsAt, List.getElem?_map, Option.map_eq_some_iff]
  simp only [List.getElem?_map, Option.map_eq_some_iff]
  apply and_congr_right'
  apply forall₂_congr
  intro j _
  exact exists_comm.trans (by simp)

theorem attempt_eq (f : α → Except ε β) (row : Row α) :
    row.attempt f =
      match firstError (row.toList.map f) with
      | none => .ok (.ofList (outputs (row.toList.map f)))
      | some (_, failed) => .error failed := by
  have hbranch : (row.map f).toList.map Effect.branch = row.toList.map f := by
    rw [toList_map]
    exact List.map_id _
  have hsequence := (row.map f).sequence_eq
  rw [hbranch] at hsequence
  rw [attempt, traverse_pure, Id.run_pure, hsequence]
  cases firstError (row.toList.map f) <;> rfl

theorem attempt_eq_ok_iff {f : α → Except ε β} {row : Row α} {last : Row β} :
    row.attempt f = .ok last ↔ row.toList.map f = last.toList.map .ok := by
  rw [← firstError_eq_none_iff, attempt_eq]
  cases firstError (row.toList.map f) with
  | some found => simp
  | none =>
    rw [Except.ok.injEq, and_iff_right rfl]
    constructor
    · rintro rfl
      rfl
    · exact fun h ↦ ext_toList h

theorem attempt_eq_error_iff {f : α → Except ε β} {row : Row α} {failed : ε} :
    row.attempt f = .error failed ↔ ∃ k, row.FailsFirst f k failed := by
  simp only [← firstError_map_eq_some_iff, attempt_eq]
  cases firstError (row.toList.map f) with
  | none => simp
  | some found => simp [Prod.ext_iff]

/-- An attempt goes through or stops at a least row. -/
theorem attempt_ok_or_failsFirst (f : α → Except ε β) (row : Row α) :
    (∃ last, row.attempt f = .ok last) ∨ ∃ k failed, row.FailsFirst f k failed := by
  cases hattempt : row.attempt f with
  | ok last => exact .inl ⟨last, rfl⟩
  | error failed =>
    obtain ⟨k, hfails⟩ := attempt_eq_error_iff.mp hattempt
    exact .inr ⟨k, failed, hfails⟩

/-! ## Two passes and one -/

/-- Both forms go through on the same rows and come to the same. -/
theorem attemptTwice_eq_ok_iff {f : α → Except ε β} {g : β → Except ε γ} {row : Row α}
    {last : Row γ} : row.attemptTwice f g = .ok last ↔ row.attemptFused f g = .ok last := by
  rw [attemptTwice, bind_eq_ok_iff, attemptFused, attempt_eq_ok_iff, map_bind_eq_ok_iff]
  simp only [attempt_eq_ok_iff]
  constructor
  · rintro ⟨middle, hmiddle, hlast⟩
    exact ⟨middle.toList, hmiddle, hlast⟩
  · rintro ⟨middle, hmiddle, hlast⟩
    exact ⟨.ofList middle, hmiddle, hlast⟩

theorem attemptTwice_eq_error_iff {f : α → Except ε β} {g : β → Except ε γ} {row : Row α}
    {failed : ε} :
    row.attemptTwice f g = .error failed ↔
      (∃ k, row.FailsFirst f k failed) ∨
        ∃ middle, row.attempt f = .ok middle ∧ ∃ k, middle.FailsFirst g k failed := by
  rw [attemptTwice, bind_eq_error_iff, attempt_eq_error_iff]
  simp only [attempt_eq_error_iff]

/-! ## Sources of failures -/

end Row

/-- One of two functions that are tried one after the other. -/
inductive Stage
  | first
  | second
deriving DecidableEq

/-- Where a failure comes from: which function failed, and on which row. -/
structure Source where
  stage : Stage
  position : Nat
deriving DecidableEq

/-- Marks an attempt that stands beside its position: a failure says where it comes from. -/
def Stage.mark (stage : Stage) : Except ε β × Nat → Except (Source × ε) (β × Nat)
  | (.ok output, k) => .ok (output, k)
  | (.error failed, k) => .error (⟨stage, k⟩, failed)

/-- Tries `f` on a field that stands beside its position. -/
def traced (stage : Stage) (f : α → Except ε β) (field : α × Nat) :
    Except (Source × ε) (β × Nat) :=
  stage.mark (f field.1, field.2)

theorem traced_eq_error_iff {stage : Stage} {f : α → Except ε β} {field : α × Nat}
    {source : Source} {failed : ε} :
    traced stage f field = .error (source, failed) ↔
      f field.1 = .error failed ∧ source = ⟨stage, field.2⟩ := by
  unfold traced
  cases f field.1 with
  | ok output => simp [Stage.mark]
  | error held => simp [Stage.mark, and_comm, eq_comm]

theorem traced_eq_ok_iff {stage : Stage} {f : α → Except ε β} {field : α × Nat}
    {last : β × Nat} :
    traced stage f field = .ok last ↔ f field.1 = .ok last.1 ∧ field.2 = last.2 := by
  unfold traced
  cases f field.1 with
  | ok output => simp [Stage.mark, Prod.ext_iff]
  | error held => simp [Stage.mark]

namespace Row

def numbered (row : Row α) : Row (α × Nat) := .ofList row.toList.zipIdx

theorem exists_numbered_iff {row : Row α} {k : Nat} {p : α × Nat → Prop} :
    (∃ field, row.numbered.toList[k]? = some field ∧ p field) ↔
      ∃ field, row.toList[k]? = some field ∧ p (field, k) := by
  simp only [numbered, toList_ofList, List.getElem?_zipIdx, Nat.zero_add, Option.map_eq_some_iff]
  constructor
  · rintro ⟨_, ⟨field, hfield, rfl⟩, hp⟩
    exact ⟨field, hfield, hp⟩
  · rintro ⟨field, hfield, hp⟩
    exact ⟨(field, k), ⟨field, hfield, rfl⟩, hp⟩

/-- The least failing row stays where it is if the functions go through on the same fields. -/
theorem numbered_failsFirst_iff {δ ζ : Type} {h : α × Nat → Except ζ δ} {f : α → Except ε β}
    (hok : ∀ field, (∃ output, h field = .ok output) ↔ ∃ output, f field.1 = .ok output)
    {row : Row α} {k : Nat} {failed : ζ} :
    row.numbered.FailsFirst h k failed ↔
      row.FailsAt (fun field ↦ h (field, k)) k failed ∧
        ∀ j < k, ∃ field, row.toList[j]? = some field ∧ ∃ output, f field = .ok output := by
  simp only [FailsFirst, FailsAt, exists_numbered_iff, hok]

/-- A traced attempt fails where the attempt does, and says so. -/
theorem attempt_traced_eq_error_iff {stage : Stage} {f : α → Except ε β} {row : Row α}
    {source : Source} {failed : ε} :
    row.numbered.attempt (traced stage f) = .error (source, failed) ↔
      source.stage = stage ∧ row.FailsFirst f source.position failed := by
  have hok (field : α × Nat) :
      (∃ output, traced stage f field = .ok output) ↔ ∃ output, f field.1 = .ok output := by
    simp [traced_eq_ok_iff]
  simp only [attempt_eq_error_iff, numbered_failsFirst_iff hok]
  simp only [FailsFirst, FailsAt, traced_eq_error_iff]
  constructor
  · rintro ⟨k, ⟨field, hfield, hfails, rfl⟩, hbefore⟩
    exact ⟨rfl, ⟨field, hfield, hfails⟩, hbefore⟩
  · rintro ⟨rfl, ⟨field, hfield, hfails⟩, hbefore⟩
    exact ⟨source.position, ⟨field, hfield, hfails, rfl⟩, hbefore⟩

/-- A traced attempt goes through where the attempt does. -/
theorem attempt_traced_of_ok (stage : Stage) {f : α → Except ε β} {row : Row α}
    {last : Row β} (h : row.attempt f = .ok last) :
    row.numbered.attempt (traced stage f) = .ok last.numbered := by
  rw [attempt_eq_ok_iff] at h ⊢
  calc
    row.toList.zipIdx.map (traced stage f)
    _ = (row.toList.zipIdx.map (Prod.map f id)).map stage.mark := by rw [List.map_map]; rfl
    _ = (last.toList.map .ok).zipIdx.map stage.mark := by rw [List.map_zipIdx, h]
    _ = (last.toList.zipIdx.map (Prod.map .ok id)).map stage.mark := by rw [List.map_zipIdx]
    _ = last.numbered.toList.map .ok := by rw [List.map_map]; rfl

/-! ## Traced forms -/

/-- Both passes, tracing where a failure comes from. -/
def tracedTwice (f : α → Except ε β) (g : β → Except ε γ) (row : Row α) :
    Except (Source × ε) (Row (γ × Nat)) :=
  row.numbered.attemptTwice (traced .first f) (traced .second g)

/-- One pass, tracing where a failure comes from. -/
def tracedFused (f : α → Except ε β) (g : β → Except ε γ) (row : Row α) :
    Except (Source × ε) (Row (γ × Nat)) :=
  row.numbered.attemptFused (traced .first f) (traced .second g)

section Traced

variable {f : α → Except ε β} {g : β → Except ε γ} {row : Row α} {source : Source} {failed : ε}

/-- Two passes stop at the least row where `f` fails if there is any, and else at the least row
where `g` fails. -/
theorem tracedTwice_eq_error_iff :
    row.tracedTwice f g = .error (source, failed) ↔
      (source.stage = .first ∧ row.FailsFirst f source.position failed) ∨
        ∃ middle, row.attempt f = .ok middle ∧
          source.stage = .second ∧ middle.FailsFirst g source.position failed := by
  rw [tracedTwice, attemptTwice, bind_eq_error_iff, attempt_traced_eq_error_iff]
  apply or_congr_right
  constructor
  · rintro ⟨last, hlast, hfails⟩
    cases hattempt : row.attempt f with
    | error held =>
      obtain ⟨k, hfirst⟩ := attempt_eq_error_iff.mp hattempt
      have hstop : row.numbered.attempt (traced .first f) = .error (⟨.first, k⟩, held) :=
        attempt_traced_eq_error_iff.mpr ⟨rfl, hfirst⟩
      rw [hstop] at hlast
      cases hlast
    | ok middle =>
      rw [attempt_traced_of_ok .first hattempt] at hlast
      cases hlast
      exact ⟨middle, rfl, attempt_traced_eq_error_iff.mp hfails⟩
  · rintro ⟨middle, hmiddle, hfails⟩
    exact ⟨middle.numbered, attempt_traced_of_ok .first hmiddle,
      attempt_traced_eq_error_iff.mpr hfails⟩

/-- A field goes through one pass whether it is traced or not. -/
theorem exists_traced_bind_eq_ok_iff (f : α → Except ε β) (g : β → Except ε γ)
    (field : α × Nat) :
    (∃ output, traced .first f field >>= traced .second g = .ok output) ↔
      ∃ output, f field.1 >>= g = .ok output := by
  simp only [bind_eq_ok_iff, traced_eq_ok_iff]
  constructor
  · rintro ⟨last, middle, ⟨hfirst, -⟩, hsecond, -⟩
    exact ⟨last.1, middle.1, hfirst, hsecond⟩
  · rintro ⟨last, middle, hfirst, hsecond⟩
    exact ⟨(last, field.2), (middle, field.2), ⟨hfirst, rfl⟩, hsecond, rfl⟩

/-- A field fails in one pass at the first function that fails on it, and a trace says so. -/
theorem traced_bind_eq_error_iff {field : α} {k : Nat} :
    traced .first f (field, k) >>= traced .second g = .error (source, failed) ↔
      f field >>= g = .error failed ∧ source.position = k ∧
        (source.stage = .first ↔ f field = .error failed) := by
  obtain ⟨stage, position⟩ := source
  simp only [bind_eq_error_iff, traced_eq_error_iff, traced_eq_ok_iff, Source.mk.injEq]
  constructor
  · rintro (⟨hfirst, rfl, rfl⟩ | ⟨middle, ⟨hfirst, rfl⟩, hsecond, rfl, rfl⟩)
    · exact ⟨.inl hfirst, rfl, iff_of_true rfl hfirst⟩
    · refine ⟨.inr ⟨middle.1, hfirst, hsecond⟩, rfl, iff_of_false nofun ?_⟩
      rw [hfirst]
      exact nofun
  · rintro ⟨hfirst | ⟨middle, hfirst, hsecond⟩, rfl, hstage⟩
    · exact .inl ⟨hfirst, hstage.mpr hfirst, rfl⟩
    · cases stage with
      | first =>
        rw [hfirst] at hstage
        cases hstage.mp rfl
      | second => exact .inr ⟨(middle, position), ⟨hfirst, rfl⟩, hsecond, rfl, rfl⟩

/-- One pass stops at the least row where `f` fails or `g` fails on its output. -/
theorem tracedFused_eq_error_iff :
    row.tracedFused f g = .error (source, failed) ↔
      row.FailsFirst (fun field ↦ f field >>= g) source.position failed ∧
        (source.stage = .first ↔ row.FailsAt f source.position failed) := by
  rw [tracedFused, attemptFused, attempt_eq_error_iff]
  simp only [numbered_failsFirst_iff (f := fun field ↦ f field >>= g)
    (exists_traced_bind_eq_ok_iff f g)]
  simp only [FailsFirst, FailsAt, traced_bind_eq_error_iff]
  constructor
  · rintro ⟨_, ⟨field, hfield, hfails, rfl, hstage⟩, hbefore⟩
    refine ⟨⟨⟨field, hfield, hfails⟩, hbefore⟩, ?_⟩
    simpa [hfield] using hstage
  · rintro ⟨⟨⟨field, hfield, hfails⟩, hbefore⟩, hstage⟩
    refine ⟨source.position, ⟨field, hfield, hfails, rfl, ?_⟩, hbefore⟩
    simpa [hfield] using hstage

/-! ## Tracing changes nothing else -/

theorem attemptTwice_eq_error_iff_traced :
    row.attemptTwice f g = .error failed ↔
      ∃ source, row.tracedTwice f g = .error (source, failed) := by
  simp only [attemptTwice_eq_error_iff, tracedTwice_eq_error_iff]
  constructor
  · rintro (⟨k, hfirst⟩ | ⟨middle, hmiddle, k, hsecond⟩)
    · exact ⟨⟨.first, k⟩, .inl ⟨rfl, hfirst⟩⟩
    · exact ⟨⟨.second, k⟩, .inr ⟨middle, hmiddle, rfl, hsecond⟩⟩
  · rintro ⟨source, ⟨-, hfirst⟩ | ⟨middle, hmiddle, -, hsecond⟩⟩
    · exact .inl ⟨source.position, hfirst⟩
    · exact .inr ⟨middle, hmiddle, source.position, hsecond⟩

theorem attemptFused_eq_error_iff_traced :
    row.attemptFused f g = .error failed ↔
      ∃ source, row.tracedFused f g = .error (source, failed) := by
  simp only [attemptFused, attempt_eq_error_iff, tracedFused_eq_error_iff]
  constructor
  · rintro ⟨k, hfirst⟩
    by_cases hstage : row.FailsAt f k failed
    · exact ⟨⟨.first, k⟩, hfirst, iff_of_true rfl hstage⟩
    · exact ⟨⟨.second, k⟩, hfirst, iff_of_false nofun hstage⟩
  · rintro ⟨source, hfirst, -⟩
    exact ⟨source.position, hfirst⟩

theorem tracedTwice_of_ok {last : Row γ} (h : row.attemptTwice f g = .ok last) :
    row.tracedTwice f g = .ok last.numbered := by
  obtain ⟨middle, hmiddle, hlast⟩ := bind_eq_ok_iff.mp h
  exact bind_eq_ok_iff.mpr ⟨middle.numbered, attempt_traced_of_ok .first hmiddle,
    attempt_traced_of_ok .second hlast⟩

theorem tracedFused_of_ok {last : Row γ} (h : row.attemptFused f g = .ok last) :
    row.tracedFused f g = .ok last.numbered :=
  attemptTwice_eq_ok_iff.mp (tracedTwice_of_ok (attemptTwice_eq_ok_iff.mpr h))

/-! ## The same source -/

/-- If `f` goes through, one pass stops where `g` does on the outputs. -/
theorem failsFirst_bind_iff {middle : Row β} (h : row.attempt f = .ok middle) {k : Nat} :
    row.FailsFirst (fun field ↦ f field >>= g) k failed ↔ middle.FailsFirst g k failed := by
  have hmap : row.toList.map (fun field ↦ f field >>= g) = middle.toList.map g := by
    calc
      row.toList.map (fun field ↦ f field >>= g)
      _ = (row.toList.map f).map (· >>= g) := by rw [List.map_map]; rfl
      _ = (middle.toList.map .ok).map (· >>= g) := by rw [attempt_eq_ok_iff.mp h]
      _ = middle.toList.map g := by rw [List.map_map]; rfl
  rw [← firstError_map_eq_some_iff, hmap, firstError_map_eq_some_iff]

/-- If one pass stops at a failure of `f`, this is the first failure of `f`. -/
theorem FailsFirst.of_bind {k : Nat} (h : row.FailsFirst (fun field ↦ f field >>= g) k failed)
    (hat : row.FailsAt f k failed) : row.FailsFirst f k failed := by
  refine ⟨hat, fun j hj ↦ ?_⟩
  obtain ⟨field, hfield, last, hlast⟩ := h.2 j hj
  obtain ⟨output, houtput, -⟩ := bind_eq_ok_iff.mp hlast
  exact ⟨field, hfield, output, houtput⟩

/-- Both forms fail, and the failures come from the same function on the same row. -/
def SameSource (f : α → Except ε β) (g : β → Except ε γ) (row : Row α) : Prop :=
  ∃ source twice fused, row.tracedTwice f g = .error (source, twice) ∧
    row.tracedFused f g = .error (source, fused)

/-- No failure of `f` comes after one of `g`: `f` does not fail at all, or it is `f` that fails on
the least row where one of the two does. -/
def InOrder (f : α → Except ε β) (g : β → Except ε γ) (row : Row α) : Prop :=
  (∀ field ∈ row.toList, ∃ output, f field = .ok output) ∨
    ∃ k failed, row.FailsFirst (fun field ↦ f field >>= g) k failed ∧ row.FailsAt f k failed

theorem InOrder.of_sameSource (h : row.SameSource f g) : row.InOrder f g := by
  obtain ⟨source, twice, fused, htwice, hfused⟩ := h
  obtain ⟨hfirst, hstage⟩ := tracedFused_eq_error_iff.mp hfused
  rcases tracedTwice_eq_error_iff.mp htwice with ⟨hsource, -⟩ | ⟨middle, hmiddle, -⟩
  · exact .inr ⟨source.position, fused, hfirst, hstage.mp hsource⟩
  · refine .inl fun field hfield ↦ ?_
    have hmem := List.mem_map_of_mem (f := f) hfield
    rw [attempt_eq_ok_iff.mp hmiddle] at hmem
    obtain ⟨output, -, houtput⟩ := List.mem_map.mp hmem
    exact ⟨output, houtput.symm⟩

theorem SameSource.of_inOrder (h : row.InOrder f g)
    (hfails : row.attemptFused f g = .error failed) : row.SameSource f g := by
  rcases h with hall | ⟨k, found, hfirst, hat⟩
  · -- Where one pass stops, `f` does not fail, so two passes get to `g` and stop there as well.
    obtain ⟨source, hfused⟩ := attemptFused_eq_error_iff_traced.mp hfails
    obtain ⟨hfirst, hstage⟩ := tracedFused_eq_error_iff.mp hfused
    have hnever {k : Nat} {found : ε} : ¬row.FailsAt f k found := by
      rintro ⟨field, hfield, hfound⟩
      obtain ⟨output, houtput⟩ := hall field (List.mem_of_getElem? hfield)
      rw [houtput] at hfound
      cases hfound
    rcases row.attempt_ok_or_failsFirst f with ⟨middle, hmiddle⟩ | ⟨k, found, hat, -⟩
    · have hsecond : source.stage = .second := by
        cases hsource : source.stage with
        | first => exact absurd (hstage.mp hsource) hnever
        | second => rfl
      refine ⟨source, failed, failed, tracedTwice_eq_error_iff.mpr (.inr ?_), hfused⟩
      exact ⟨middle, hmiddle, hsecond, (failsFirst_bind_iff hmiddle).mp hfirst⟩
    · exact absurd hat hnever
  · refine ⟨⟨.first, k⟩, found, found, ?_, ?_⟩
    · exact tracedTwice_eq_error_iff.mpr (.inl ⟨rfl, hfirst.of_bind hat⟩)
    · exact tracedFused_eq_error_iff.mpr ⟨hfirst, iff_of_true rfl hat⟩

end Traced

/-! ## Fusion -/

/-- In any monad, two traversals one after the other are two passes. -/
theorem traverse_traverse_pure {m : Type → Type} [Monad m] [LawfulMonad m]
    (f : α → Except ε β) (g : β → Except ε γ) (row : Row α) :
    (do
        match ← row.traverse (fun field ↦ (pure (f field) : m (Except ε β))) with
        | .error failed => return .error failed
        | .ok middle => middle.traverse fun output ↦ pure (g output)) =
      pure (row.attemptTwice f g) := by
  rw [traverse_pure_eq_attempt, pure_bind, attemptTwice]
  cases row.attempt f with
  | error failed => rfl
  | ok middle => exact traverse_pure_eq_attempt g middle

/-- How two passes compare with one. The sources are those of the traced forms, which fail exactly
as the forms themselves do. -/
structure Fuses (f : α → Except ε β) (g : β → Except ε γ) (row : Row α) : Prop where
  twice_eq {m : Type → Type} [Monad m] [LawfulMonad m] :
    (do
        match ← row.traverse (fun field ↦ (pure (f field) : m (Except ε β))) with
        | .error failed => return .error failed
        | .ok middle => middle.traverse fun output ↦ pure (g output)) =
      pure (row.attemptTwice f g)
  fused_eq {m : Type → Type} [Monad m] [LawfulMonad m] :
    row.traverse (fun field ↦ (pure (f field >>= g) : m (Except ε γ))) =
      pure (row.attemptFused f g)
  ok_iff (last : Row γ) : row.attemptTwice f g = .ok last ↔ row.attemptFused f g = .ok last
  twice_error_iff (failed : ε) :
    row.attemptTwice f g = .error failed ↔
      (∃ k, row.FailsFirst f k failed) ∨
        ∃ middle, row.attempt f = .ok middle ∧ ∃ k, middle.FailsFirst g k failed
  fused_error_iff (failed : ε) :
    row.attemptFused f g = .error failed ↔
      ∃ k, row.FailsFirst (fun field ↦ f field >>= g) k failed
  twice_traced (failed : ε) :
    row.attemptTwice f g = .error failed ↔
      ∃ source, row.tracedTwice f g = .error (source, failed)
  fused_traced (failed : ε) :
    row.attemptFused f g = .error failed ↔
      ∃ source, row.tracedFused f g = .error (source, failed)
  traced_of_ok (last : Row γ) (h : row.attemptTwice f g = .ok last) :
    row.tracedTwice f g = .ok last.numbered ∧ row.tracedFused f g = .ok last.numbered
  twice_source_iff (source : Source) (failed : ε) :
    row.tracedTwice f g = .error (source, failed) ↔
      (source.stage = .first ∧ row.FailsFirst f source.position failed) ∨
        ∃ middle, row.attempt f = .ok middle ∧
          source.stage = .second ∧ middle.FailsFirst g source.position failed
  fused_source_iff (source : Source) (failed : ε) :
    row.tracedFused f g = .error (source, failed) ↔
      row.FailsFirst (fun field ↦ f field >>= g) source.position failed ∧
        (source.stage = .first ↔ row.FailsAt f source.position failed)
  sameSource_iff (failed : ε) (hfails : row.attemptFused f g = .error failed) :
    row.SameSource f g ↔ row.InOrder f g

theorem attempts_fuse (f : α → Except ε β) (g : β → Except ε γ) (row : Row α) :
    row.Fuses f g where
  twice_eq := traverse_traverse_pure f g row
  fused_eq := traverse_pure_eq_attempt _ row
  ok_iff _ := attemptTwice_eq_ok_iff
  twice_error_iff _ := attemptTwice_eq_error_iff
  fused_error_iff _ := attempt_eq_error_iff
  twice_traced _ := attemptTwice_eq_error_iff_traced
  fused_traced _ := attemptFused_eq_error_iff_traced
  traced_of_ok _ h := ⟨tracedTwice_of_ok h, tracedFused_of_ok (attemptTwice_eq_ok_iff.mp h)⟩
  twice_source_iff _ _ := tracedTwice_eq_error_iff
  fused_source_iff _ _ := tracedFused_eq_error_iff
  sameSource_iff _ hfails := ⟨InOrder.of_sameSource, (.of_inOrder · hfails)⟩

end Row

def half (n : Nat) : Except Nat Nat := if n % 2 = 0 then .ok (n / 2) else .error n

def predecessor (n : Nat) : Except Nat Nat := if n = 0 then .error n else .ok (n - 1)

/-- Three has no half, and the half of zero no predecessor. Two passes over both find out about the
three, one pass stops at the zero before it. In the other order both stop at the three. -/
theorem attempts_fuse_apart_at_zero :
    (Row.ofList [4, 0, 3]).attemptTwice half predecessor = .error 3 ∧
      (Row.ofList [4, 0, 3]).attemptFused half predecessor = .error 0 ∧
      ¬(Row.ofList [4, 0, 3]).SameSource half predecessor ∧
      (Row.ofList [4, 3, 0]).SameSource half predecessor := by
  have hfuses := Row.attempts_fuse half predecessor
  have hbefore (j : Nat) (hj : j < 1) :
      ∃ field, [4, 3, 0][j]? = some field ∧ ∃ output, half field >>= predecessor = .ok output := by
    cases Nat.lt_one_iff.mp hj
    exact ⟨4, rfl, 1, rfl⟩
  have hapart : (Row.ofList [4, 0, 3]).tracedTwice half predecessor = .error (⟨.first, 2⟩, 3) ∧
      (Row.ofList [4, 0, 3]).tracedFused half predecessor = .error (⟨.second, 1⟩, 0) := ⟨rfl, rfl⟩
  refine ⟨?_, ?_, ?_, ?_⟩
  · exact ((hfuses _).twice_traced 3).mpr ⟨_, hapart.1⟩
  · exact ((hfuses _).fused_traced 0).mpr ⟨_, hapart.2⟩
  · rintro ⟨source, twice, fused, htwice, hfused⟩
    cases hapart.1.symm.trans htwice
    cases hapart.2.symm.trans hfused
  · apply ((hfuses _).sameSource_iff 3 rfl).mpr
    exact .inr ⟨1, 3, ⟨⟨3, rfl, rfl⟩, hbefore⟩, 3, rfl, rfl⟩

end PositionalRecord
