/-!
# Effects that may stop

An effect either holds an output, and whoever runs a sequence of effects goes on, or holds a
residual, and the run stops there and hands the residual back unchanged. `Except` and `Option` are
effects; so is `Id`, which never stops. Traversals are written once against `Effect`.

What runs the effects is a loop, `gather`, with a cell for the residual and a collection that is
only partial when the cell is filled. What it comes to is said by recursion on the items, `collect`,
and `outcome_gather` proves the two equal.
-/

namespace PositionalRecord

/-- A type of computations that hold an output or a residual in `ρ`. -/
class Effect (F : Type → Type) (ρ : outParam Type) where
  /-- The effect that goes on with `output`. -/
  ofOutput {β : Type} (output : β) : F β
  /-- The effect that stops with `residual`. -/
  ofResidual {β : Type} (residual : ρ) : F β
  /-- What the effect holds, a residual being the error. -/
  branch {β : Type} (effect : F β) : Except ρ β

namespace Effect

variable {F : Type → Type} {ρ β : Type} [Effect F ρ]

/-- The effect that holds what `branch` found. -/
def ofBranch : Except ρ β → F β
  | .ok output => ofOutput output
  | .error residual => ofResidual residual

end Effect

/-- Branching finds what the effect was built from, and nothing else is in an effect. -/
class LawfulEffect (F : Type → Type) {ρ : outParam Type} [Effect F ρ] : Prop where
  branch_ofOutput {β : Type} (output : β) :
    Effect.branch (Effect.ofOutput output : F β) = .ok output
  branch_ofResidual {β : Type} (residual : ρ) :
    Effect.branch (Effect.ofResidual residual : F β) = .error residual
  ofBranch_branch {β : Type} (effect : F β) : Effect.ofBranch (Effect.branch effect) = effect

/-! ## Instances -/

instance (ε : Type) : Effect (Except ε) ε where
  ofOutput := .ok
  ofResidual := .error
  branch := id

instance (ε : Type) : LawfulEffect (Except ε) where
  branch_ofOutput _ := rfl
  branch_ofResidual _ := rfl
  ofBranch_branch effect := by cases effect <;> rfl

instance : Effect Option Unit where
  ofOutput := some
  ofResidual _ := none
  branch
    | some output => .ok output
    | none => .error ()

instance : LawfulEffect Option where
  branch_ofOutput _ := rfl
  branch_ofResidual _ := rfl
  ofBranch_branch effect := by cases effect <;> rfl

instance : Effect Id Empty where
  ofOutput := id
  ofResidual residual := nomatch residual
  branch := .ok

instance : LawfulEffect Id where
  branch_ofOutput _ := rfl
  branch_ofResidual residual := nomatch residual
  ofBranch_branch _ := rfl

/-! ## Running effects in order -/

/-- What a loop over items keeps: a cell for the residual that ends it, and the outputs so far. -/
structure Gathered (ρ β : Type) where
  residual : Option ρ
  outputs : Array β

namespace Gathered

variable {ρ β : Type}

def start : Gathered ρ β := ⟨none, #[]⟩

/-- The residual in the cell, which leaves the outputs behind, or else all outputs. -/
def outcome (gathered : Gathered ρ β) : Except ρ (List β) :=
  match gathered.residual with
  | some residual => .error residual
  | none => .ok gathered.outputs.toList

end Gathered

variable {m : Type → Type} [Monad m] {F : Type → Type} {α β ρ : Type} [Effect F ρ]

/-- Runs `f` on the items in order as long as it gives outputs. The first residual is put into the
cell, and no further item is visited. -/
def gather (f : α → m (F β)) : List α → Gathered ρ β → m (Gathered ρ β)
  | [], gathered => pure gathered
  | item :: rest, gathered => do
    match Effect.branch (← f item) with
    | .ok output => gather f rest { gathered with outputs := gathered.outputs.push output }
    | .error residual => pure { gathered with residual := some residual }

/-- Runs `f` on the items in order and collects the outputs, or stops at the first residual, after
which no further item is visited. -/
def collect (f : α → m (F β)) : List α → m (Except ρ (List β))
  | [] => pure (.ok [])
  | item :: rest => do
    match Effect.branch (← f item) with
    | .error residual => pure (.error residual)
    | .ok output =>
      match ← collect f rest with
      | .error residual => pure (.error residual)
      | .ok outputs => pure (.ok (output :: outputs))

section Lawful

variable [LawfulMonad m]

/-- After an output the collection goes on, and what it collects later comes after the output. -/
theorem collect_cons (f : α → m (F β)) (item : α) (rest : List α) :
    collect f (item :: rest) =
      (do
        match Effect.branch (← f item) with
        | .error held => return .error held
        | .ok output => (·.map (output :: ·)) <$> collect f rest) := by
  rw [collect]
  apply bind_congr
  intro effect
  cases Effect.branch effect with
  | error held => rfl
  | ok output =>
    dsimp only
    rw [map_eq_pure_bind]
    apply bind_congr
    intro later
    cases later <;> rfl

/-- The loop comes to what is collected, after the outputs that it starts with. -/
theorem outcome_gather (f : α → m (F β)) (items : List α) (outputs : Array β) :
    Gathered.outcome <$> gather f items ⟨none, outputs⟩ =
      (·.map (outputs.toList ++ ·)) <$> collect f items := by
  induction items generalizing outputs with
  | nil =>
    rw [gather, collect, map_pure, map_pure]
    simp [Gathered.outcome, Except.map]
  | cons item rest ih =>
    rw [gather, collect_cons, map_bind, map_bind]
    apply bind_congr
    intro effect
    cases Effect.branch effect with
    | error held =>
      dsimp only
      rw [map_pure, map_pure]
      rfl
    | ok output =>
      dsimp only
      rw [ih, Functor.map_map]
      congr 1
      funext later
      cases later <;> simp [Except.map]

theorem outcome_gather_start (f : α → m (F β)) (items : List α) :
    Gathered.outcome <$> gather f items .start = collect f items := by
  have hkeep (later : Except ρ (List β)) : later.map ([] ++ ·) = later := by
    cases later <;> rfl
  calc
    Gathered.outcome <$> gather f items .start
    _ = (·.map ([] ++ ·)) <$> collect f items := outcome_gather f items #[]
    _ = collect f items := by simp only [hkeep, id_map']

end Lawful

end PositionalRecord
