import PositionalRecord.Violation

/-!
# Runs

A run is a computation that can be watched. It keeps a journal: a log of what the library reports
about itself, a trace of the calls and polls that the caller's functions saw, and a world of the
caller's own. A run that faults keeps the journal up to the fault.
-/

namespace PositionalRecord

/-! ## What a journal holds -/

inductive Level
  | trace
  | debug
deriving DecidableEq

def Level.label : Level → String
  | .trace => "TRACE"
  | .debug => "DEBUG"

/-- What the library reports: that changes are about to be made on a row, or that a record was
refused for its number of fields. -/
inductive Entry
  | flush (overwrites prepended length : Nat)
  | refusedFields (expected provided : Nat)
deriving DecidableEq

namespace Entry

def level : Entry → Level
  | .flush .. => .trace
  | .refusedFields .. => .debug

def text : Entry → String
  | .flush overwrites prepended length =>
    "flushing " ++ toString overwrites ++ " updates and " ++ toString prepended ++
      " new fields into a record of " ++ toString length ++ " fields"
  | .refusedFields expected provided =>
    "refusing to build a record of " ++ toString expected ++ " fields from " ++
      toString provided ++ " values"

end Entry

/-- What a caller's function sees: its call number `k` with these arguments, or a poll of the
future that call `k` made, which was ready or not. -/
inductive Event (ν : Type)
  | call (k : Nat) (arguments : List ν)
  | poll (k : Nat) (ready : Bool)
deriving DecidableEq

/-- Why a run stopped: a violated contract, or a caller's function that raised. -/
inductive Fault
  | violation (broken : Violation)
  | raised (text : String)
deriving DecidableEq

def Fault.message : Fault → String
  | .violation broken => broken.message
  | .raised text => text

/-- What a run has left behind so far: the log, the trace and the caller's world. -/
structure Journal (ν σ : Type) where
  log : Array Entry
  trace : Array (Event ν)
  world : σ

/-- The journal before anything happened in `world`. -/
def Journal.start {ν σ : Type} (world : σ) : Journal ν σ := ⟨#[], #[], world⟩

/-! ## Runs -/

/-- Computations that keep a journal, also when they fault. -/
abbrev Run (ν σ : Type) := EStateM Fault (Journal ν σ)

namespace Run

variable {ν σ α : Type}

def report (entry : Entry) : Run ν σ Unit :=
  modify fun journal ↦ { journal with log := journal.log.push entry }

def observe (event : Event ν) : Run ν σ Unit :=
  modify fun journal ↦ { journal with trace := journal.trace.push event }

/-- Stops the run with the text that a caller's function raised. -/
def raise (text : String) : Run ν σ α := throw (.raised text)

/-- Goes on with the answer of a checked operation, or stops with its violation. -/
def ofExcept : Except Violation α → Run ν σ α
  | .ok answer => pure answer
  | .error violation => throw (.violation violation)

def onWorld (action : StateM σ α) : Run ν σ α := fun journal ↦
  let (answer, world) := action.run journal.world
  .ok answer { journal with world }

end Run

end PositionalRecord
