import PositionalRecord.Run

/-!
# Futures

A future answers when polled: either it is ready with a value, or it hands back what is left of
it, to be polled again. `drive` polls a future until it is ready or a limit is reached. A
`Deferred` is the future that is ready after a given number of vain polls, each of which it shows
in the trace.
-/

namespace PositionalRecord

inductive Poll (φ β : Type)
  | pending (rest : φ)
  | ready (value : β)

/-- Polls a future until it is ready, but at most `limit` times. The answer is the number of polls
made and, if the future became ready, its value. -/
def drive {m : Type → Type} [Monad m] {φ β : Type} (poll : φ → m (Poll φ β)) :
    Nat → φ → m (Nat × Option β)
  | 0, _ => pure (0, none)
  | limit + 1, future => do
    match ← poll future with
    | .ready value => pure (1, some value)
    | .pending rest =>
      let (polls, value) ← drive poll limit rest
      pure (polls + 1, value)

/-! ## Deferred values -/

/-- How often a traversal has to be polled at most that waits for futures with these delays: once,
and once more for every vain poll. -/
def pollBound (delays : List Nat) : Nat := delays.foldr (· + ·) 1

/-- The future of call `slot`, ready with `value` after `delay` vain polls. -/
structure Deferred (β : Type) where
  slot : Nat
  delay : Nat
  value : β

/-- Polls a deferred value and shows the poll in the trace. -/
def Deferred.poll {ν σ β : Type} (future : Deferred β) :
    Run ν σ (Poll (Deferred β) β) := do
  match future.delay with
  | 0 =>
    Run.observe (.poll future.slot true)
    return .ready future.value
  | delay + 1 =>
    Run.observe (.poll future.slot false)
    return .pending { future with delay }

end PositionalRecord
