import PositionalRecord.Row.Basic
import PositionalRecord.Effect

/-!
# Traversing rows

A traversal calls a function on every field, in row order and one call at a time. The function may
do anything its monad `m` allows. An effectful traversal stops at the first residual. Pairing two
rows first compares their lengths: the check is the outer `Except` of the result, so a mismatch is
known before the function is called at all.
-/

namespace PositionalRecord.Row

variable {m : Type → Type} [Monad m] {F : Type → Type} {ρ : Type} [Effect F ρ] {α β γ : Type}

/-! ## One row -/

/-- Calls `f` on every field; the row of its answers. -/
def mapM (f : α → m β) (row : Row α) : m (Row β) :=
  ofList <$> row.toList.mapM f

/-- Calls `f` on every field up to the first residual; the row of all outputs, or that residual. -/
def traverse (f : α → m (F β)) (row : Row α) : m (F (Row β)) :=
  (fun gathered ↦ Effect.ofBranch (gathered.outcome.map ofList)) <$> gather f row.toList .start

theorem traverse_eq_collect [LawfulMonad m] (f : α → m (F β)) (row : Row α) :
    row.traverse f =
      (fun outcome ↦ Effect.ofBranch (outcome.map ofList)) <$> collect f row.toList := by
  rw [traverse, ← outcome_gather_start, Functor.map_map]

/-- The effects that a row holds as one effect: the row of all outputs, or the first residual. -/
def sequence (row : Row (F β)) : F (Row β) :=
  Id.run (row.traverse pure)

/-! ## Two rows -/

/-- Calls `f` on the fields of two rows of one length, position by position. -/
def zipWithM (f : α → β → m γ) (left : Row α) (right : Row β) :
    Except Violation (m (Row γ)) := do
  Violation.checkShape .plain left.length right.length
  return ofList <$> List.zipWithM f left.toList right.toList

/-- Calls `f` on the fields of two rows of one length, position by position, up to the first
residual. -/
def zipTraverse (f : α → β → m (F γ)) (left : Row α) (right : Row β) :
    Except Violation (m (F (Row γ))) := do
  Violation.checkShape .effectful left.length right.length
  return traverse (fun pair ↦ f pair.1 pair.2) (ofList (left.toList.zip right.toList))

/-- Calls the function in each field on the argument at the same position. -/
def ap (functions : Row (α → m β)) (arguments : Row α) : Except Violation (m (Row β)) :=
  zipWithM (fun f argument ↦ f argument) functions arguments

end PositionalRecord.Row
