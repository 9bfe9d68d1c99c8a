import PositionalRecord.Proofs.Schedules
import PositionalRecord.Proofs.Synchrony

/-!
# Plain and effectful traversals

Where two traversals overlap they agree. If no call fails, an effectful traversal is the plain one
with its row as the output. If a failure is turned into another effect without its cause, so is
the failure of the traversal, and nothing else changes. And if the answers of a function depend on
its argument alone, all effects can be collected first and then be run as one, although more calls
are made. Each agreement is kept by one more call in front, and so follows by induction on the
items.
-/

namespace PositionalRecord

variable {ν σ α β γ δ ε ρ : Type} {F G : Type → Type} [Effect F ρ] [Effect G δ]

/-! ## Calls that do not fail -/

/-- Wherever the run does not give a residual, it is the plain run with the answer as its output. -/
def Run.IsPlainOf (plain : Run ν σ β) (run : Run ν σ (F β)) : Prop :=
  ∀ start : Journal ν σ, (∀ held, run.ending start ≠ .error (.residual held)) →
    run start = (Effect.ofOutput <$> plain) start

/-- To use what an effect holds as the answer, also where it holds a residual, is plain. -/
theorem Run.isPlainOf_map [LawfulEffect F] {view : F β → β}
    (hview : ∀ output, view (Effect.ofOutput output) = output) (run : Run ν σ (F β)) :
    (view <$> run).IsPlainOf run := by
  intro start hnever
  cases hrun : run start with
  | error raised stop => rw [map_error (map_error hrun view) Effect.ofOutput]
  | ok effect finish =>
    rw [map_ok (map_ok hrun view) Effect.ofOutput]
    cases hbranch : Effect.branch effect with
    | error held =>
      apply absurd _ (hnever held)
      rw [ending_of_ok hrun, hbranch]
      rfl
    | ok output =>
      have heffect : Effect.ofOutput output = effect := by
        rw [← LawfulEffect.ofBranch_branch effect, hbranch, Effect.ofBranch]
      rw [← heffect, hview]

/-- None of the calls that a traversal of the items makes gives a residual. -/
def Unfailing (f : α → Run ν σ (F β)) (items : List α) (start : Journal ν σ) : Prop :=
  ∀ k held, firstError (endings f items start) ≠ some (k, .residual held)

theorem Unfailing.head {f : α → Run ν σ (F β)} {item : α} {rest : List α} {start : Journal ν σ}
    (h : Unfailing f (item :: rest) start) (held : ρ) :
    (f item).ending start ≠ .error (.residual held) := by
  intro hending
  apply h 0 held
  rw [endings, hending, firstError]

theorem Unfailing.tail {f : α → Run ν σ (F β)} {item : α} {rest : List α} {start : Journal ν σ}
    (h : Unfailing f (item :: rest) start) {output : β}
    (houtput : (f item).ending start = .ok output) :
    Unfailing f rest ((f item).leave start) := by
  intro k held hrest
  apply h (k + 1) held
  rw [endings, houtput, firstError, hrest]
  rfl

/-- If no call fails, the outputs are collected as the plain answers are. -/
theorem collect_of_unfailing [LawfulEffect F] {f : α → Run ν σ (F β)} {plain : α → Run ν σ β}
    (hplain : ∀ item, (plain item).IsPlainOf (f item)) {items : List α} {start : Journal ν σ}
    (h : Unfailing f items start) :
    collect f items start = (Except.ok <$> items.mapM plain) start := by
  induction items generalizing start with
  | nil => rfl
  | cons item rest ih =>
    have hcall := hplain item start h.head
    rw [List.mapM_cons, map_bind, collect_cons]
    cases hrun : plain item start with
    | error raised stop =>
      have hfault : f item start = .error raised stop := hcall.trans (Run.map_error hrun _)
      rw [Run.bind_error hfault, Run.bind_error hrun]
    | ok output middle =>
      have houtput : f item start = .ok (Effect.ofOutput output) middle :=
        hcall.trans (Run.map_ok hrun _)
      have hbranch : Effect.branch (Effect.ofOutput output : F β) = .ok output :=
        LawfulEffect.branch_ofOutput output
      have hending : (f item).ending start = .ok output := by
        rw [Run.ending_of_ok houtput, hbranch]
        rfl
      have hrest := h.tail hending
      rw [Run.leave_of_ok houtput] at hrest
      rw [Run.bind_ok houtput, Run.bind_ok hrun, hbranch]
      calc
        ((·.map (output :: ·)) <$> collect f rest) middle
        _ = ((·.map (output :: ·)) <$> Except.ok <$> rest.mapM plain) middle :=
          Run.map_congr (ih hrest) _
        _ = (Except.ok <$> (output :: ·) <$> rest.mapM plain) middle := by
          rw [Functor.map_map, Functor.map_map]
          rfl
        _ = _ := by rw [map_eq_pure_bind (output :: ·)]

/-- If no call fails, an effectful traversal is the plain one. -/
theorem Row.traverse_of_unfailing [LawfulEffect F] {f : α → Run ν σ (F β)}
    {plain : α → Run ν σ β} (hplain : ∀ item, (plain item).IsPlainOf (f item)) {row : Row α}
    {start : Journal ν σ} (h : Unfailing f row.toList start) :
    row.traverse f start = (Effect.ofOutput <$> row.mapM plain) start := by
  calc
    row.traverse f start
    _ = ((fun outcome ↦ Effect.ofBranch (outcome.map ofList)) <$> collect f row.toList) start := by
      rw [traverse_eq_collect]
    _ = ((fun outcome ↦ Effect.ofBranch (outcome.map ofList)) <$> Except.ok <$>
          row.toList.mapM plain) start := Run.map_congr (collect_of_unfailing hplain h) _
    _ = (Effect.ofOutput <$> row.mapM plain) start := by
      rw [mapM, Functor.map_map, Functor.map_map]
      rfl

/-- On two rows of one length, too. -/
theorem Row.zipTraverse_of_unfailing [LawfulEffect F] {f : α → β → Run ν σ (F γ)}
    {plain : α → β → Run ν σ γ} (hplain : ∀ a b, (plain a b).IsPlainOf (f a b)) {left : Row α}
    {right : Row β} (hlength : left.length = right.length) {start : Journal ν σ}
    (h : Unfailing (fun pair ↦ f pair.1 pair.2) (left.toList.zip right.toList) start) :
    ∃ traversal direct, Row.zipTraverse f left right = .ok traversal ∧
      Row.zipWithM plain left right = .ok direct ∧
        traversal start = (Effect.ofOutput <$> direct) start := by
  have hdirect := zipWithM_eq (fun pair : α × β ↦ plain pair.1 pair.2) hlength
  refine ⟨_, _, zipTraverse_eq f hlength, hdirect, ?_⟩
  exact traverse_of_unfailing (fun pair : α × β ↦ hplain pair.1 pair.2) h

/-! ## Failures without their causes -/

section Translation

variable {m : Type → Type} [Monad m] [LawfulMonad m]

/-- If outputs stay what they are and residuals become other ones, the same holds of what is
collected. -/
theorem collect_translated {translate : F β → G β} {cause : ρ → δ}
    (h : ∀ effect, Effect.branch (translate effect) = (Effect.branch effect).mapError cause)
    (f : α → m (F β)) (items : List α) :
    collect (fun item ↦ translate <$> f item) items = (·.mapError cause) <$> collect f items := by
  induction items with
  | nil =>
    rw [collect, collect, map_pure]
    rfl
  | cons item rest ih =>
    rw [collect_cons, collect_cons, bind_map_left, map_bind]
    apply bind_congr
    intro effect
    rw [h effect, ih]
    cases Effect.branch effect with
    | error held =>
      dsimp only [Except.mapError]
      rw [map_pure]
    | ok output =>
      change (·.map (output :: ·)) <$> (·.mapError cause) <$> collect f rest =
        (·.mapError cause) <$> (·.map (output :: ·)) <$> collect f rest
      rw [Functor.map_map, Functor.map_map]
      congr 1
      funext later
      cases later <;> rfl

theorem branch_toOption (effect : Except ε β) :
    Effect.branch effect.toOption = (Effect.branch effect).mapError fun _ ↦ () := by
  cases effect <;> rfl

/-- Forgetting the cause of every failure is forgetting the cause of the first. -/
theorem Row.traverse_toOption (f : α → m (Except ε β)) (row : Row α) :
    row.traverse (fun item ↦ Except.toOption <$> f item) = Except.toOption <$> row.traverse f := by
  rw [traverse_eq_collect, traverse_eq_collect, collect_translated branch_toOption,
    Functor.map_map, Functor.map_map]
  congr 1
  funext outcome
  cases outcome <;> rfl

theorem Row.zipTraverse_toOption (f : α → β → m (Except ε γ)) (left : Row α) (right : Row β) :
    Row.zipTraverse (fun a b ↦ Except.toOption <$> f a b) left right =
      (Except.toOption <$> ·) <$> Row.zipTraverse f left right := by
  rw [zipTraverse, zipTraverse]
  cases Violation.checkShape .effectful left.length right.length with
  | error broken => rfl
  | ok checked => exact congrArg Except.ok (traverse_toOption _ _)

theorem Row.sequence_toOption (effects : Row (Except ε β)) :
    (effects.map Except.toOption).sequence = effects.sequence.toOption := by
  have hmapped := traverse_pure (m := Id) Except.toOption effects
  calc
    (effects.map Except.toOption).sequence
    _ = Id.run (effects.traverse fun effect ↦ Except.toOption <$> (pure effect : Id _)) :=
      congrArg Id.run hmapped.symm
    _ = effects.sequence.toOption := by
      rw [traverse_toOption]
      rfl

end Translation

/-! ## Answers that depend on the argument alone -/

/-- Whatever happened before, every call answers as `f` does. -/
def AnswersAs (watched : α → Run ν σ β) (f : α → β) : Prop :=
  ∀ item start, watched item start = .ok (f item) ((watched item).leave start)

namespace AnswersAs

theorem mapM_eq {watched : α → Run ν σ β} {f : α → β} (h : AnswersAs watched f) (items : List α)
    (start : Journal ν σ) :
    items.mapM watched start = .ok (items.map f) (afterCalls watched items start) := by
  induction items generalizing start with
  | nil => rfl
  | cons item rest ih =>
    rw [List.mapM_cons, Run.bind_ok (h item start), Run.bind_ok (ih _)]
    rfl

theorem endings_eq {watched : α → Run ν σ (F β)} {f : α → F β} (h : AnswersAs watched f)
    (items : List α) (start : Journal ν σ) :
    endings watched items start =
      (items.map f).map fun effect ↦ (Effect.branch effect).mapError .residual := by
  induction items generalizing start with
  | nil => rfl
  | cons item rest ih =>
    rw [endings, Run.ending_of_ok (h item start), ih]
    rfl

/-- To call a function of the argument alone is to answer as it does, however it is watched. -/
theorem of_call (f : α → β) (arguments : α → List ν) :
    AnswersAs ((Callback.ofState fun item ↦ (pure (f item) : StateM σ β)).call arguments) f := by
  intro item start
  have hcall := (Callback.ofState fun item ↦ (pure (f item) : StateM σ β)).call_eq arguments item
    start
  rw [Run.leave_of_give hcall]
  exact hcall

end AnswersAs

/-- To make all calls and then run the effects that they answer comes to what the traversal comes
to, which makes no call after the first failure. -/
theorem Row.sequence_mapM {watched : α → Run ν σ (F γ)} {f : α → F γ} (h : AnswersAs watched f)
    (row : Row α) (start : Journal ν σ) :
    (sequence <$> row.mapM watched) start =
        .ok (row.map f).sequence (afterCalls watched row.toList start) ∧
      row.traverse watched start =
        .ok (row.map f).sequence
          (afterCalls watched (row.toList.take (reach (row.toList.map f))) start) := by
  rw [← ofList_toList (row.map f), toList_map]
  constructor
  · exact Run.map_ok (Run.map_ok (h.mapM_eq row.toList start) ofList) sequence
  · exact traverse_of_effects (h.endings_eq row.toList start)

/-! ## All agreements -/

/-- How the traversals of one row, and of it with another one of the same length, agree. -/
structure Row.TraversalsAgree (row : Row α) (other : Row β) : Prop where
  traverse_unfailing {ν σ γ ρ : Type} {F : Type → Type} [Effect F ρ] [LawfulEffect F]
      {f : α → Run ν σ (F γ)} {plain : α → Run ν σ γ}
      (hplain : ∀ item, (plain item).IsPlainOf (f item)) {start : Journal ν σ}
      (h : Unfailing f row.toList start) :
    row.traverse f start = (Effect.ofOutput <$> row.mapM plain) start
  zipTraverse_unfailing {ν σ γ ρ : Type} {F : Type → Type} [Effect F ρ] [LawfulEffect F]
      {f : α → β → Run ν σ (F γ)} {plain : α → β → Run ν σ γ}
      (hplain : ∀ a b, (plain a b).IsPlainOf (f a b)) (hlength : row.length = other.length)
      {start : Journal ν σ}
      (h : Unfailing (fun pair ↦ f pair.1 pair.2) (row.toList.zip other.toList) start) :
    ∃ traversal direct, Row.zipTraverse f row other = .ok traversal ∧
      Row.zipWithM plain row other = .ok direct ∧
        traversal start = (Effect.ofOutput <$> direct) start
  traverse_option {ν σ γ ε : Type} (f : α → Run ν σ (Except ε γ)) :
    row.traverse (fun item ↦ Except.toOption <$> f item) = Except.toOption <$> row.traverse f
  zipTraverse_option {ν σ γ ε : Type} (f : α → β → Run ν σ (Except ε γ)) :
    Row.zipTraverse (fun a b ↦ Except.toOption <$> f a b) row other =
      (Except.toOption <$> ·) <$> Row.zipTraverse f row other
  sequence_option {ε γ : Type} (effects : Row (Except ε γ)) :
    (effects.map Except.toOption).sequence = effects.sequence.toOption
  sequence_mapM {ν σ γ ρ : Type} {F : Type → Type} [Effect F ρ] {watched : α → Run ν σ (F γ)}
      {f : α → F γ} (h : AnswersAs watched f) (start : Journal ν σ) :
    (sequence <$> row.mapM watched) start =
        .ok (row.map f).sequence (afterCalls watched row.toList start) ∧
      row.traverse watched start =
        .ok (row.map f).sequence
          (afterCalls watched (row.toList.take (reach (row.toList.map f))) start)

theorem Row.traversals_agree (row : Row α) (other : Row β) : row.TraversalsAgree other where
  traverse_unfailing hplain _ h := traverse_of_unfailing hplain h
  zipTraverse_unfailing hplain hlength := zipTraverse_of_unfailing hplain hlength
  traverse_option f := traverse_toOption f row
  zipTraverse_option f := zipTraverse_toOption f row other
  sequence_option := sequence_toOption
  sequence_mapM h := sequence_mapM h row

/-- What an attempt holds, whether it went well or failed. -/
def heldEitherWay : Except Nat Nat → Nat
  | .ok output => output
  | .error held => held

/-- The quotient of six, or zero held back. -/
def quotientOfSix (n : Nat) : Except Nat Nat := if n = 0 then .error n else .ok (6 / n)

/-- Dividing six by two and by three does not fail, though dividing by zero does, and so is the
plain quotient. Of four quotients the second is the first to fail: all four calls are made before
the effects are run, and two by the traversal. -/
theorem traversals_agree_around_zero :
    (Row.ofList [2, 3]).traverse (countedQuotient 6) (.start 0) =
        .ok (.ok (.ofList [3, 2])) ⟨#[], #[.call 0 [6, 2], .call 1 [6, 3]], 2⟩ ∧
      (Row.ofList [2, 0, 3]).traverse (fun n ↦ Except.toOption <$> countedQuotient 6 n)
          (.start 0) =
        .ok none ⟨#[], #[.call 0 [6, 2], .call 1 [6, 0]], 2⟩ ∧
      ∃ watched : Nat → Run Nat (Tallied Unit) (Except Nat Nat), AnswersAs watched quotientOfSix ∧
        (Row.sequence <$> (Row.ofList [2, 0, 3, 0]).mapM watched) (.start ⟨0, ()⟩) =
          .ok (.error 0) ⟨#[], #[.call 0 [2], .call 1 [0], .call 2 [3], .call 3 [0]], ⟨4, ()⟩⟩ ∧
        (Row.ofList [2, 0, 3, 0]).traverse watched (.start ⟨0, ()⟩) =
          .ok (.error 0) ⟨#[], #[.call 0 [2], .call 1 [0]], ⟨2, ()⟩⟩ := by
  have hplain (n : Nat) : (heldEitherWay <$> countedQuotient 6 n).IsPlainOf (countedQuotient 6 n) :=
    Run.isPlainOf_map (fun _ ↦ rfl) _
  have hnever : Unfailing (countedQuotient 6) (Row.ofList [2, 3]).toList (.start 0) := nofun
  have hpure := AnswersAs.of_call (σ := Unit) quotientOfSix fun n ↦ [n]
  have htwo := Row.traversals_agree (.ofList [2, 3]) (.empty : Row Nat)
  have hthree := Row.traversals_agree (.ofList [2, 0, 3]) (.empty : Row Nat)
  have hfour := Row.traversals_agree (.ofList [2, 0, 3, 0]) (.empty : Row Nat)
  obtain ⟨hall, hsome⟩ := hfour.sequence_mapM hpure (.start ⟨0, ()⟩)
  have houtcome : ((Row.ofList [2, 0, 3, 0]).map quotientOfSix).sequence = .error 0 := by
    rw [Row.sequence_eq, Row.toList_map]
    rfl
  rw [houtcome] at hall hsome
  have hunfailing := htwo.traverse_unfailing hplain hnever
  have hoption := congrFun (hthree.traverse_option (countedQuotient 6)) (.start 0)
  exact ⟨hunfailing, hoption, _, hpure, hall, hsome⟩

end PositionalRecord
