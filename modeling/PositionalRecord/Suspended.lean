import PositionalRecord.Future
import PositionalRecord.Row.Traverse

/-!
# Suspended traversals

A suspended traversal calls a function that makes futures: it makes the future of a field, waits
for it, and only then goes on to the next field. It is a future itself. A poll goes on where the
last one stopped, and stops at the first future that is not ready. After a residual no further
future is made.
-/

namespace PositionalRecord

/-- A traversal that stands still: the outputs so far, the future it waits for (none before the
first poll), and the items whose futures have not been made. -/
structure Suspended (α φ β : Type) where
  outputs : Array β
  current : Option φ
  waiting : List α

namespace Suspended

variable {m : Type → Type} [Monad m] {F : Type → Type} {ρ : Type} [Effect F ρ]
  {α φ β : Type}

def start (items : List α) : Suspended α φ β := ⟨#[], none, items⟩

/-- Waits for `future`, then for the futures of the waiting items, one after the other. -/
def proceed (make : α → m φ) (poll : φ → m (Poll φ (F β))) (outputs : Array β) (future : φ)
    (waiting : List α) : m (Poll (Suspended α φ β) (F (Row β))) := do
  match ← poll future with
  | .pending rest => return .pending ⟨outputs, some rest, waiting⟩
  | .ready effect =>
    match Effect.branch effect with
    | .error residual => return .ready (Effect.ofResidual residual)
    | .ok output =>
      match waiting with
      | [] => return .ready (Effect.ofOutput ⟨outputs.push output⟩)
      | item :: waiting => proceed make poll (outputs.push output) (← make item) waiting

/-- Polls the traversal: goes on until a future is not ready or the traversal is complete. -/
def poll (make : α → m φ) (pollItem : φ → m (Poll φ (F β))) (traversal : Suspended α φ β) :
    m (Poll (Suspended α φ β) (F (Row β))) := do
  match traversal.current, traversal.waiting with
  | some future, waiting => proceed make pollItem traversal.outputs future waiting
  | none, [] => return .ready (Effect.ofOutput ⟨traversal.outputs⟩)
  | none, item :: waiting => proceed make pollItem traversal.outputs (← make item) waiting

end Suspended

/-! ## Rows -/

namespace Row

variable {α β φ γ : Type}

def suspend (row : Row α) : Suspended α φ β := .start row.toList

/-- The traversal of two rows of one length, position by position, before its first poll. The
lengths are compared at once, not at the first poll. -/
def suspendZip (pairing : Pairing) (left : Row α) (right : Row β) :
    Except Violation (Suspended (α × β) φ γ) := do
  Violation.checkShape pairing left.length right.length
  return .start (left.toList.zip right.toList)

end Row

end PositionalRecord
