import PositionalRecord.Proofs.Polling

/-!
# Callbacks

A callback is a function of the caller's that keeps a world of its own: a call changes that world,
on which later answers may depend, and answers or raises. It can be called in two ways. Called
directly, it shows the call in the trace under its number and answers. Called for a future, it does
just the same, and its answer is deferred for as many vain polls as are asked for.
-/

namespace PositionalRecord

variable {ν σ α β ρ : Type} {F : Type → Type} [Effect F ρ]

/-- A function of the caller's with a world `σ` of its own. -/
abbrev Callback (σ α β : Type) := α → σ → Except String β × σ

/-- The world of a callback whose calls are counted. -/
structure Tallied (σ : Type) where
  calls : Nat
  own : σ

def Tallied.next : StateM (Tallied σ) Nat := fun world ↦
  (world.calls, { world with calls := world.calls + 1 })

/-- Answers, or raises the text. -/
def Run.give : Except String β → Run ν σ β
  | .ok value => pure value
  | .error text => Run.raise text

theorem Run.leave_of_give {run : Run ν σ α} {start finish : Journal ν σ}
    {answer : Except String α} (h : run start = Run.give answer finish) :
    run.leave start = finish := by
  cases answer with
  | ok value => exact Run.leave_of_ok h
  | error text => exact Run.leave_of_error h

/-- The events of calls on the items, numbered from `first` on. -/
def callEvents (arguments : α → List ν) (items : List α) (first : Nat) : List (Event ν) :=
  (items.zipIdx first).map fun numbered ↦ .call numbered.2 (arguments numbered.1)

/-- How a call with this answer ends. -/
def verdict : Except String (F β) → Except (Stop ρ) β
  | .ok effect => (Effect.branch effect).mapError .residual
  | .error text => .error (.fault (.raised text))

theorem Run.ending_of_give {run : Run ν σ (F β)} {start finish : Journal ν σ}
    {answer : Except String (F β)} (h : run start = Run.give answer finish) :
    run.ending start = verdict answer := by
  rw [Run.ending, h]
  cases answer <;> rfl

namespace Callback

/-- Answers a call in the callback's own world. -/
def answer (f : Callback σ α β) (item : α) : StateM (Tallied σ) (Except String β) := fun world ↦
  ((f item world.own).1, { world with own := (f item world.own).2 })

/-- Calls a callback: numbers the call, shows it with its arguments, and answers. -/
def callNumbered (f : Callback σ α β) (arguments : α → List ν) (item : α) :
    Run ν (Tallied σ) (Nat × β) := do
  let k ← Run.onWorld Tallied.next
  Run.observe (.call k (arguments item))
  let value ← Run.give (← Run.onWorld (f.answer item))
  return (k, value)

def call (f : Callback σ α β) (arguments : α → List ν) (item : α) : Run ν (Tallied σ) β :=
  Prod.snd <$> f.callNumbered arguments item

/-- Calls a callback now and defers the answer of call `k` for `delays k` vain polls. -/
def defer (f : Callback σ α β) (arguments : α → List ν) (delays : Nat → Nat) (item : α) :
    Run ν (Tallied σ) (Deferred β) :=
  (fun answer ↦ ⟨answer.1, delays answer.1, answer.2⟩) <$> f.callNumbered arguments item

/-- The callback that never raises. -/
def ofState (f : α → StateM σ β) : Callback σ α β := fun item own ↦
  let (value, own) := (f item).run own
  (.ok value, own)

/-! ## What a call does -/

/-- The journal after a call. -/
def called (f : Callback σ α β) (arguments : α → List ν) (item : α)
    (journal : Journal ν (Tallied σ)) : Journal ν (Tallied σ) :=
  { journal with
    trace := journal.trace.push (.call journal.world.calls (arguments item))
    world := ⟨journal.world.calls + 1, (f item journal.world.own).2⟩ }

section OneCall

variable (f : Callback σ α β) (arguments : α → List ν) (item : α) (start : Journal ν (Tallied σ))

theorem called_adds :
    start.Adds [.call start.world.calls (arguments item)] (f.called arguments item start) := by
  rw [Journal.Adds, called, Array.append_singleton]

/-- A call shows itself and then answers or raises, as the callback does in its own world. -/
theorem callNumbered_eq :
    f.callNumbered arguments item start =
      Run.give ((f item start.world.own).1.map (start.world.calls, ·))
        (f.called arguments item start) := by
  let numbered : Journal ν (Tallied σ) :=
    { start with world := { start.world with calls := start.world.calls + 1 } }
  let shown : Journal ν (Tallied σ) :=
    { numbered with trace := start.trace.push (.call start.world.calls (arguments item)) }
  have hnumber : Run.onWorld Tallied.next start = .ok start.world.calls numbered := rfl
  have hshow : Run.observe (.call start.world.calls (arguments item)) numbered = .ok () shown := rfl
  have hanswer : Run.onWorld (f.answer item) shown =
      .ok (f item start.world.own).1 (f.called arguments item start) := rfl
  refine (Run.bind_ok hnumber _).trans ((Run.bind_ok hshow _).trans
    ((Run.bind_ok hanswer _).trans ?_))
  cases (f item start.world.own).1 <;> rfl

theorem call_eq :
    f.call arguments item start =
      Run.give (f item start.world.own).1 (f.called arguments item start) := by
  refine (Run.map_congr (f.callNumbered_eq arguments item start) _).trans ?_
  cases (f item start.world.own).1 <;> rfl

/-- A call for a future is the same call, and what is deferred is its answer. -/
theorem defer_eq (delays : Nat → Nat) :
    f.defer arguments delays item start =
      Run.give ((f item start.world.own).1.map fun value ↦
        ⟨start.world.calls, delays start.world.calls, value⟩) (f.called arguments item start) := by
  refine (Run.map_congr (f.callNumbered_eq arguments item start) _).trans ?_
  cases (f item start.world.own).1 <;> rfl

end OneCall

/-! ## Direct calls -/

/-- Direct calls show themselves one after the other and nothing else. -/
theorem afterCalls_call_adds (f : Callback σ α β) (arguments : α → List ν) (items : List α)
    (start : Journal ν (Tallied σ)) :
    start.Adds (callEvents arguments items start.world.calls)
      (afterCalls (f.call arguments) items start) := by
  induction items generalizing start with
  | nil => exact start.adds_nil
  | cons item rest ih =>
    rw [afterCalls_cons, Run.leave_of_give (f.call_eq arguments item start)]
    exact (f.called_adds arguments item start).trans (ih _)

/-! ## Calls for futures -/

/-- A call for a future polls nothing. -/
theorem defer_quiet (f : Callback σ α β) (arguments : α → List ν) (delays : Nat → Nat)
    (item : α) : (f.defer arguments delays item).Quiet := by
  intro start
  have hleave : (f.defer arguments delays item).leave start = f.called arguments item start :=
    Run.leave_of_give (f.defer_eq arguments item start delays)
  exact ⟨_, hleave ▸ f.called_adds arguments item start, rfl⟩

/-- The polls of the future that a call makes, if it makes one. -/
def polls (f : Callback σ α β) (delays : Nat → Nat) (item : α) (world : Tallied σ) :
    List (Event ν) :=
  match (f item world.own).1 with
  | .ok value => (⟨world.calls, delays world.calls, value⟩ : Deferred β).polls
  | .error _ => []

/-- The journal after a call for a future that is awaited at once. -/
def awaited (f : Callback σ α β) (arguments : α → List ν) (delays : Nat → Nat) (item : α)
    (journal : Journal ν (Tallied σ)) : Journal ν (Tallied σ) :=
  (f.called arguments item journal).showing (f.polls delays item journal.world)

section OneAwait

variable (f : Callback σ α β) (arguments : α → List ν) (delays : Nat → Nat) (item : α)
  (start : Journal ν (Tallied σ))

/-- A future that is awaited at once gives what the call itself would give. -/
theorem makeAwaited_defer_eq :
    makeAwaited (f.defer arguments delays) item start =
      Run.give (f item start.world.own).1 (f.awaited arguments delays item start) := by
  have hdefer := f.defer_eq arguments item start delays
  unfold awaited polls
  cases hanswer : (f item start.world.own).1 with
  | ok value =>
    rw [hanswer] at hdefer
    exact Run.bind_ok hdefer _
  | error text =>
    rw [hanswer] at hdefer
    exact (Run.bind_error hdefer _).trans (by rw [Journal.showing_nil]; rfl)

theorem awaited_adds :
    start.Adds (.call start.world.calls (arguments item) :: f.polls delays item start.world)
      (f.awaited arguments delays item start) := by
  exact (f.called_adds arguments item start).trans (Journal.adds_showing _ _)

end OneAwait

end Callback

end PositionalRecord
