import PositionalRecord.Future
import PositionalRecord.Value.Cast
import PositionalRecord.Value.Equality
import PositionalRecord.Value.Supply
import PositionalRecord.Value.Text

/-!
# Routines

A `Routine` is a function on values given as data: what it answers, at which calls it fails or
raises, and how long its answers take when it is used to make futures. It counts its calls, and
each call shows in the trace before anything else is done. Routines run in a `Bench`, which knows
the next unused cell and the number of the next call.
-/

namespace PositionalRecord

/-! ## The bench -/

structure Bench where
  nextCell : Nat
  calls : Nat
deriving DecidableEq

namespace Bench

def supply {α : Type} (action : Supply α) : Run Value Bench α :=
  Run.onWorld fun bench ↦
    let (answer, nextCell) := action.run bench.nextCell
    (answer, { bench with nextCell })

def nextCall : Run Value Bench Nat :=
  Run.onWorld fun bench ↦ (bench.calls, { bench with calls := bench.calls + 1 })

/-- Counts calls from zero again, for a routine that has not been called yet. -/
def restart : Run Value Bench Unit :=
  Run.onWorld fun bench ↦ ((), { bench with calls := 0 })

end Bench

/-! ## What a routine answers -/

inductive Arguments
  | one (a : Value)
  | two (a b : Value)

namespace Arguments

def first : Arguments → Value
  | .one a => a
  | .two a _ => a

def last : Arguments → Value
  | .one a => a
  | .two _ b => b

def toList : Arguments → List Value
  | .one a => [a]
  | .two a b => [a, b]

end Arguments

/-- What a routine answers to a call that goes well. -/
inductive Action
  | first
  | last
  | choose (choices : List Value)
  | make (value : Supply Value)
  | render (layout : Layout)
  | label
  | box
  | constant
  | pair
  | equal
  | identical
  | add (n : Int)
  | multiply (n : Int)
  | sum
  | difference
  | quotient

/-- Computations that make new values and may fail with a value. -/
abbrev Attempt := ExceptT Value Supply

namespace Attempt

def place (content : Content Value) : Attempt Value := monadLift (Supply.new content)

/-- Makes a new 64-bit integer, wrapped around into its range. -/
def wrapped (n : Int) : Attempt Value := place (.scalar (.int .i64 (n.bmod Int64.size)))

def fail {α : Type} (content : Content Value) : Attempt α := do throw (← place content)

/-- Reads a 64-bit integer, or fails with the refusal. -/
def readInt (value : Value) : Attempt Int :=
  match value.toInt with
  | .ok n => pure n
  | .error refusal => fail (.scalar (.refusal refusal))

end Attempt

/-- The quotient, truncated, unless the divisor is zero or the quotient leaves the range of 64-bit
integers. -/
def quotient? (dividend divisor : Int) : Option Int :=
  if divisor = 0 ∨ (dividend = Int64.minValue.toInt ∧ divisor = -1) then none
  else some (dividend.tdiv divisor)

namespace Action

open Attempt in
/-- The answer to call number `k`. Arithmetic reads the first argument before the last. -/
def answer (k : Nat) (arguments : Arguments) : Action → Attempt Value
  | .first => pure arguments.first
  | .last => pure arguments.last
  | .choose choices => pure (choices[k]?.getD arguments.first)
  | .make value => monadLift value
  | .render layout => place (.scalar (.string (arguments.first.text layout)))
  | .label => place (.scalar (.slice arguments.first.label))
  | .box => place (.boxed arguments.first)
  | .constant => place (.constant ⟨arguments.first⟩)
  | .pair => place (.pair arguments.first arguments.last)
  | .equal => place (.scalar (.bool (arguments.first.equal arguments.last)))
  | .identical => place (.scalar (.bool (arguments.first.identical arguments.last)))
  | .add n => do wrapped ((← readInt arguments.first) + n)
  | .multiply n => do wrapped ((← readInt arguments.first) * n)
  | .sum => do
    let a ← readInt arguments.first
    let b ← readInt arguments.last
    wrapped (a + b)
  | .difference => do
    let a ← readInt arguments.first
    let b ← readInt arguments.last
    wrapped (a - b)
  | .quotient => do
    let a ← readInt arguments.first
    let b ← readInt arguments.last
    match quotient? a b with
    | some n => wrapped n
    | none => fail (.scalar (.slice "division by zero"))

end Action

/-! ## Routines -/

/-- How a call goes wrong: it raises, or it fails with a value, by default its first argument. -/
inductive Mishap
  | raise (text : String)
  | fail (value : Option Value)

/-- A mishap, and the call or the kind of first argument that meets with it. -/
structure Failure where
  call : Option Nat
  label : Option String
  mishap : Mishap

/-- Whether call number `k` with this first argument meets with the failure. -/
def Failure.strikes (failure : Failure) (k : Nat) (argument : Value) : Bool :=
  failure.call == some k || failure.label == some argument.label

/-- A function on values, as data. -/
structure Routine where
  action : Action
  failures : List Failure
  delays : List Nat

namespace Routine

/-- Calls a routine: numbers the call, shows it in the trace, and answers. The first failure that
strikes decides. -/
def callNumbered (routine : Routine) (arguments : Arguments) :
    Run Value Bench (Nat × Except Value Value) := do
  let k ← Bench.nextCall
  Run.observe (.call k arguments.toList)
  match routine.failures.find? (·.strikes k arguments.first) with
  | some ⟨_, _, .raise text⟩ => Run.raise text
  | some ⟨_, _, .fail value⟩ => return (k, .error (value.getD arguments.first))
  | none => return (k, ← Bench.supply (routine.action.answer k arguments).run)

/-- Calls a routine; a failure is an error. -/
def call (routine : Routine) (arguments : Arguments) :
    Run Value Bench (Except Value Value) :=
  Prod.snd <$> routine.callNumbered arguments

def callOption (routine : Routine) (arguments : Arguments) : Run Value Bench (Option Value) :=
  Except.toOption <$> routine.call arguments

def eitherWay : Except Value Value → Value
  | .ok value => value
  | .error value => value

/-- Calls a routine; the value of a failure is an answer like any other. -/
def callPlain (routine : Routine) (arguments : Arguments) : Run Value Bench Value :=
  eitherWay <$> routine.call arguments

/-- Calls a routine now and defers its answer for as many polls as the routine says. -/
def defer {β : Type} (view : Except Value Value → β) (routine : Routine)
    (arguments : Arguments) : Run Value Bench (Deferred β) := do
  let (k, outcome) ← routine.callNumbered arguments
  return ⟨k, routine.delays[k]?.getD 0, view outcome⟩

end Routine

end PositionalRecord
