import PositionalRecord.Suspended
import PositionalRecord.Proofs.FirstStop

/-!
# Polling a suspended traversal

A suspended traversal can be finished without interruption: every future that it makes is awaited
at once, with all its polls. Polling it is the same run in pieces. A poll that is not ready leaves
a traversal that finishes in the same way, and shows exactly one vain poll of a future, as the last
thing it does; a poll that is ready, or faults, has finished the run. So the state after any number
of polls is a point of the uninterrupted run, by induction on the number of polls.
-/

namespace PositionalRecord

variable {ν σ α β ρ : Type} {F : Type → Type} [Effect F ρ]

/-! ## Events -/

/-- Whether the event is the poll of a future that was not ready. -/
def Event.isVain : Event ν → Bool
  | .poll _ false => true
  | _ => false

def vainPolls (events : List (Event ν)) : Nat := events.countP Event.isVain

@[simp]
theorem vainPolls_nil : vainPolls ([] : List (Event ν)) = 0 := rfl

theorem vainPolls_cons (event : Event ν) (rest : List (Event ν)) :
    vainPolls (event :: rest) = vainPolls rest + if event.isVain then 1 else 0 :=
  List.countP_cons

@[simp]
theorem vainPolls_append (first second : List (Event ν)) :
    vainPolls (first ++ second) = vainPolls first + vainPolls second := List.countP_append

/-- The last of the events, if there is any, is a vain poll. -/
def EndsVain (events : List (Event ν)) : Prop := ∀ event ∈ events.getLast?, event.isVain

theorem endsVain_append {first second : List (Event ν)} (hfirst : EndsVain first)
    (hsecond : EndsVain second) : EndsVain (first ++ second) := by
  intro event hevent
  rw [List.getLast?_append, Option.mem_def, Option.or_eq_some_iff] at hevent
  rcases hevent with hevent | ⟨-, hevent⟩
  · exact hsecond event hevent
  · exact hfirst event hevent

namespace Journal

/-- The journal with more events at the end of its trace. -/
def showing (journal : Journal ν σ) (events : List (Event ν)) : Journal ν σ :=
  { journal with trace := journal.trace ++ events.toArray }

@[simp]
theorem showing_nil (journal : Journal ν σ) : journal.showing [] = journal := by
  simp [showing]

@[simp]
theorem showing_showing (journal : Journal ν σ) (first second : List (Event ν)) :
    (journal.showing first).showing second = journal.showing (first ++ second) := by
  simp [showing, Array.append_assoc]

/-- Between the two journals exactly these events were shown. -/
def Adds (start : Journal ν σ) (events : List (Event ν)) (finish : Journal ν σ) : Prop :=
  finish.trace = start.trace ++ events.toArray

theorem adds_nil (journal : Journal ν σ) : journal.Adds [] journal := by
  simp [Adds]

theorem adds_showing (journal : Journal ν σ) (events : List (Event ν)) :
    journal.Adds events (journal.showing events) := rfl

theorem Adds.trans {start middle finish : Journal ν σ} {first second : List (Event ν)}
    (hfirst : start.Adds first middle) (hsecond : middle.Adds second finish) :
    start.Adds (first ++ second) finish := by
  unfold Adds at *
  rw [hsecond, hfirst, Array.append_assoc, List.append_toArray first second]

/-- What was shown between two journals is known from the journals. -/
theorem Adds.unique {start finish : Journal ν σ} {first second : List (Event ν)}
    (hfirst : start.Adds first finish) (hsecond : start.Adds second finish) : first = second := by
  have heq : start.trace ++ first.toArray = start.trace ++ second.toArray :=
    hfirst.symm.trans hsecond
  have harray : first.toArray = second.toArray := Array.append_right_inj start.trace |>.mp heq
  exact congrArg Array.toList harray

end Journal

/-- The run shows nothing but what is not a vain poll. -/
def Run.Quiet (run : Run ν σ α) : Prop :=
  ∀ start : Journal ν σ, ∃ shown, start.Adds shown (run.leave start) ∧ vainPolls shown = 0

theorem Run.quiet_pure (answer : α) : Run.Quiet (pure answer : Run ν σ α) :=
  fun start ↦ ⟨[], start.adds_nil, rfl⟩

/-- The run leaves the trace as it is or adds to it. -/
def Run.OnlyAdds (run : Run ν σ α) : Prop :=
  ∀ start : Journal ν σ, ∃ shown, start.Adds shown (run.leave start)

theorem Run.OnlyAdds.map {run : Run ν σ α} (h : run.OnlyAdds) (f : α → β) :
    (f <$> run).OnlyAdds := by
  intro start
  rw [Run.leave_map]
  exact h start

theorem afterCalls_adds {f : α → Run ν σ β} (h : ∀ item, (f item).OnlyAdds) (items : List α)
    (start : Journal ν σ) : ∃ shown, start.Adds shown (afterCalls f items start) := by
  induction items generalizing start with
  | nil => exact ⟨[], start.adds_nil⟩
  | cons item rest ih =>
    obtain ⟨first, hfirst⟩ := h item start
    obtain ⟨later, hlater⟩ := ih ((f item).leave start)
    exact ⟨first ++ later, hfirst.trans hlater⟩

theorem collect_onlyAdds {f : α → Run ν σ (F β)} (h : ∀ item, (f item).OnlyAdds)
    (items : List α) : (collect f items).OnlyAdds := by
  intro start
  obtain ⟨count, hleave⟩ := leave_collect f items start
  rw [hleave]
  exact afterCalls_adds h (items.take count) start

/-! ## Waiting without interruption -/

/-- The polls of a future, up to the one that is ready. -/
def Deferred.polls (future : Deferred β) : List (Event ν) :=
  List.replicate future.delay (.poll future.slot false) ++ [.poll future.slot true]

/-- Polls a future until it is ready. -/
def Deferred.await (future : Deferred β) : Run ν σ β := fun start ↦
  .ok future.value (start.showing future.polls)

@[simp]
theorem Deferred.vainPolls_polls (future : Deferred β) :
    vainPolls (future.polls : List (Event ν)) = future.delay := by
  simp [polls, vainPolls, Event.isVain, List.countP_replicate]

theorem Deferred.poll_of_delay {future : Deferred β} {delay : Nat} (h : future.delay = delay + 1)
    (start : Journal ν σ) :
    future.poll start =
      .ok (.pending { future with delay }) (start.showing [.poll future.slot false]) := by
  rw [poll, h]
  simp only [Journal.showing, Array.append_singleton]
  rfl

theorem Deferred.poll_of_ready {future : Deferred β} (h : future.delay = 0)
    (start : Journal ν σ) :
    future.poll start = .ok (.ready future.value) (start.showing future.polls) := by
  rw [poll, polls, h]
  simp only [Journal.showing, List.replicate_zero, List.nil_append, Array.append_singleton]
  rfl

/-- Makes the future of an item and awaits it. -/
def makeAwaited (make : α → Run ν σ (Deferred β)) (item : α) : Run ν σ β := do
  (← make item).await

/-- Two rows of one length are traversed as the row of their pairs. -/
theorem Row.suspendZip_eq {φ : Type} (pairing : Pairing) {left : Row α} {right : Row β}
    (h : left.length = right.length) :
    (suspendZip pairing left right : Except Violation (Suspended (α × β) φ γ)) =
      .ok (.start (left.toList.zip right.toList)) := by
  rw [suspendZip, Violation.checkShape_of_eq pairing h]
  rfl

namespace Suspended

/-- The answer of a traversal that has these outputs so far, from what is collected later. -/
def conclude (outputs : Array β) (later : Except ρ (List β)) : F (Row β) :=
  Effect.ofBranch (later.map fun fields ↦ ⟨outputs ++ fields.toArray⟩)

theorem conclude_push (outputs : Array β) (output : β) (later : Except ρ (List β)) :
    conclude (F := F) outputs (later.map (output :: ·)) = conclude (outputs.push output) later := by
  cases later with
  | error held => rfl
  | ok fields => simp [conclude, Except.map]

theorem traverse_eq_conclude (f : α → Run ν σ (F β)) (row : Row α) :
    row.traverse f = conclude #[] <$> collect f row.toList := by
  have hconclude : conclude (F := F) (#[] : Array β) =
      fun outcome ↦ Effect.ofBranch (outcome.map Row.ofList) := by
    funext outcome
    cases outcome with
    | error held => rfl
    | ok fields => simp [conclude, Except.map, Row.ofList]
  rw [hconclude]
  exact row.traverse_eq_collect f

/-- Goes on with a traversal to its end, without interruption: awaits the future that it waits for,
and then those of the waiting items. -/
def finish (make : α → Run ν σ (Deferred (F β))) :
    Suspended α (Deferred (F β)) β → Run ν σ (F (Row β))
  | ⟨outputs, none, waiting⟩ => conclude outputs <$> collect (makeAwaited make) waiting
  | ⟨outputs, some future, waiting⟩ => do
    match Effect.branch (← future.await) with
    | .error held => return Effect.ofResidual held
    | .ok output => conclude (outputs.push output) <$> collect (makeAwaited make) waiting

/-- A traversal that has not started finishes as the traversal of its items. -/
theorem finish_start (make : α → Run ν σ (Deferred (F β))) (items : List α) :
    (start items).finish make = (Row.ofList items).traverse (makeAwaited make) :=
  (traverse_eq_conclude (makeAwaited make) (.ofList items)).symm

/-! ## Finishing, step by step -/

section Steps

variable {make : α → Run ν σ (Deferred (F β))} {future : Deferred (F β)}

theorem finish_nil (outputs : Array β) (start : Journal ν σ) :
    finish make ⟨outputs, none, []⟩ start = .ok (Effect.ofOutput ⟨outputs⟩) start := by
  have hcollect : collect (makeAwaited make) [] start = .ok (.ok []) start := rfl
  rw [finish, Run.map_ok hcollect]
  simp [conclude, Except.map, Effect.ofBranch]

theorem finish_of_output {output : β} (h : Effect.branch future.value = .ok output)
    (outputs : Array β) (waiting : List α) (start : Journal ν σ) :
    finish make ⟨outputs, some future, waiting⟩ start =
      finish make ⟨outputs.push output, none, waiting⟩ (start.showing future.polls) := by
  have hawait : future.await start = .ok future.value (start.showing future.polls) := rfl
  refine (Run.bind_ok hawait _).trans ?_
  rw [h]
  rfl

theorem finish_of_residual {held : ρ} (h : Effect.branch future.value = .error held)
    (outputs : Array β) (waiting : List α) (start : Journal ν σ) :
    finish make ⟨outputs, some future, waiting⟩ start =
      .ok (Effect.ofResidual held) (start.showing future.polls) := by
  have hawait : future.await start = .ok future.value (start.showing future.polls) := rfl
  refine (Run.bind_ok hawait _).trans ?_
  rw [h]
  rfl

/-- The traversal goes on to wait for the future of the next item. -/
theorem finish_cons {item : α} {start middle : Journal ν σ} (h : make item start = .ok future middle)
    (outputs : Array β) (waiting : List α) :
    finish make ⟨outputs, none, item :: waiting⟩ start =
      finish make ⟨outputs, some future, waiting⟩ middle := by
  have hawait : makeAwaited make item start = .ok future.value (middle.showing future.polls) :=
    Run.bind_ok h _
  have hleave := Run.leave_of_ok hawait
  have hending := Run.ending_of_ok hawait
  cases hbranch : Effect.branch future.value with
  | error held =>
    rw [hbranch] at hending
    have hcollect := collect_cons_of_stop hending waiting
    rw [hleave] at hcollect
    exact (Run.map_ok hcollect _).trans (finish_of_residual hbranch outputs waiting middle).symm
  | ok output =>
    rw [hbranch] at hending
    have hcollect := collect_cons_of_output hending waiting
    rw [hleave] at hcollect
    rw [finish_of_output hbranch]
    calc
      finish make ⟨outputs, none, item :: waiting⟩ start
      _ = (conclude outputs <$> (·.map (output :: ·)) <$> collect (makeAwaited make) waiting)
            (middle.showing future.polls) := Run.map_congr hcollect _
      _ = finish make ⟨outputs.push output, none, waiting⟩ (middle.showing future.polls) := by
        rw [Functor.map_map]
        simp only [conclude_push]
        rfl

theorem finish_cons_of_error {item : α} {start stop : Journal ν σ} {fault : Fault}
    (h : make item start = .error fault stop) (outputs : Array β) (waiting : List α) :
    finish make ⟨outputs, none, item :: waiting⟩ start = .error fault stop := by
  have hawait : makeAwaited make item start = .error fault stop := Run.bind_error h _
  have hcollect : collect (makeAwaited make) (item :: waiting) start = .error fault stop :=
    Run.bind_error hawait _
  exact Run.map_error hcollect _

/-- A vain poll is one of those that finishing the traversal makes. -/
theorem finish_of_delay {delay : Nat} (h : future.delay = delay + 1) (outputs : Array β)
    (waiting : List α) (start : Journal ν σ) :
    finish make ⟨outputs, some future, waiting⟩ start =
      finish make ⟨outputs, some { future with delay }, waiting⟩
        (start.showing [.poll future.slot false]) := by
  have hpolls : start.showing future.polls =
      (start.showing [.poll future.slot false]).showing { future with delay }.polls := by
    rw [Journal.showing_showing, Deferred.polls, Deferred.polls, h, List.replicate_succ]
    rfl
  cases hbranch : Effect.branch future.value with
  | error held =>
    have hrest : Effect.branch { future with delay }.value = .error held := hbranch
    rw [finish_of_residual hbranch, finish_of_residual hrest, hpolls]
  | ok output =>
    have hrest : Effect.branch { future with delay }.value = .ok output := hbranch
    rw [finish_of_output hbranch, finish_of_output hrest, hpolls]

end Steps

/-! ## Finishing only adds to the trace -/

section OnlyAdds

variable {make : α → Run ν σ (Deferred (F β))}

theorem makeAwaited_onlyAdds (hmake : ∀ item, (make item).Quiet) (item : α) :
    (makeAwaited make item).OnlyAdds := by
  intro start
  obtain ⟨shown, hshown, -⟩ := hmake item start
  cases hrun : make item start with
  | error raised stop =>
    have hawait : makeAwaited make item start = .error raised stop := Run.bind_error hrun _
    rw [Run.leave_of_error hrun] at hshown
    rw [Run.leave_of_error hawait]
    exact ⟨shown, hshown⟩
  | ok future middle =>
    have hawait : makeAwaited make item start =
        .ok future.value (middle.showing future.polls) := Run.bind_ok hrun _
    rw [Run.leave_of_ok hrun] at hshown
    rw [Run.leave_of_ok hawait]
    exact ⟨shown ++ future.polls, hshown.trans (middle.adds_showing _)⟩

theorem finish_onlyAdds (hmake : ∀ item, (make item).Quiet)
    (traversal : Suspended α (Deferred (F β)) β) : (traversal.finish make).OnlyAdds := by
  obtain ⟨outputs, current, waiting⟩ := traversal
  have hwaiting (outputs : Array β) : (finish make ⟨outputs, none, waiting⟩).OnlyAdds :=
    (collect_onlyAdds (makeAwaited_onlyAdds hmake) waiting).map _
  cases current with
  | none => exact hwaiting outputs
  | some future =>
    intro start
    cases hbranch : Effect.branch future.value with
    | error held =>
      rw [Run.leave_of_ok (finish_of_residual hbranch outputs waiting start)]
      exact ⟨future.polls, start.adds_showing _⟩
    | ok output =>
      obtain ⟨shown, hshown⟩ := hwaiting (outputs.push output) (start.showing future.polls)
      unfold Run.leave at *
      rw [finish_of_output hbranch]
      exact ⟨future.polls ++ shown, (start.adds_showing _).trans hshown⟩

/-- What was shown on the way to a traversal that is left is the first part of all that finishing
shows. -/
theorem shown_append (hmake : ∀ item, (make item).Quiet)
    {traversal next : Suspended α (Deferred (F β)) β} {start stop : Journal ν σ}
    {shown all : List (Event ν)} (hshown : start.Adds shown stop)
    (hsame : traversal.finish make start = next.finish make stop)
    (hall : start.Adds all ((traversal.finish make).leave start)) :
    ∃ later, shown ++ later = all := by
  obtain ⟨later, hlater⟩ := finish_onlyAdds hmake next stop
  rw [Run.leave, ← hsame, ← Run.leave] at hlater
  exact ⟨later, (hshown.trans hlater).unique hall⟩

end OnlyAdds

/-! ## One poll -/

/-- One poll of a traversal is a piece of finishing it: the poll stops at the first vain poll of a
future, and what it leaves finishes in the same way; or it has finished. -/
inductive Resumed (make : α → Run ν σ (Deferred (F β)))
    (traversal : Suspended α (Deferred (F β)) β) (start : Journal ν σ) :
    EStateM.Result Fault (Journal ν σ) (Poll (Suspended α (Deferred (F β)) β) (F (Row β))) → Prop
  | pending {next : Suspended α (Deferred (F β)) β} {stop : Journal ν σ}
      {shown : List (Event ν)} {slot : Nat} (hquiet : vainPolls shown = 0)
      (hshown : start.Adds (shown ++ [.poll slot false]) stop)
      (hfinish : traversal.finish make start = next.finish make stop) :
    Resumed make traversal start (.ok (.pending next) stop)
  | ready {answer : F (Row β)} {stop : Journal ν σ} {shown : List (Event ν)}
      (hquiet : vainPolls shown = 0) (hshown : start.Adds shown stop)
      (hfinish : traversal.finish make start = .ok answer stop) :
    Resumed make traversal start (.ok (.ready answer) stop)
  | fault {raised : Fault} {stop : Journal ν σ} {shown : List (Event ν)}
      (hquiet : vainPolls shown = 0) (hshown : start.Adds shown stop)
      (hfinish : traversal.finish make start = .error raised stop) :
    Resumed make traversal start (.error raised stop)

/-- Quiet steps may come before. -/
theorem Resumed.of_quiet {make : α → Run ν σ (Deferred (F β))}
    {traversal later : Suspended α (Deferred (F β)) β} {start middle : Journal ν σ}
    {result : EStateM.Result Fault (Journal ν σ) (Poll (Suspended α (Deferred (F β)) β) (F (Row β)))}
    (h : Resumed make later middle result) {before : List (Event ν)}
    (hbefore : start.Adds before middle) (hvain : vainPolls before = 0)
    (hsame : traversal.finish make start = later.finish make middle) :
    Resumed make traversal start result := by
  have hzero {shown : List (Event ν)} (hquiet : vainPolls shown = 0) :
      vainPolls (before ++ shown) = 0 := by
    rw [vainPolls_append, hvain, hquiet]
  cases h with
  | pending hquiet hshown hfinish =>
    have hall := hbefore.trans hshown
    rw [← List.append_assoc] at hall
    exact .pending (hzero hquiet) hall (hsame.trans hfinish)
  | ready hquiet hshown hfinish =>
    exact .ready (hzero hquiet) (hbefore.trans hshown) (hsame.trans hfinish)
  | fault hquiet hshown hfinish =>
    exact .fault (hzero hquiet) (hbefore.trans hshown) (hsame.trans hfinish)

section OnePoll

variable {make : α → Run ν σ (Deferred (F β))} {future : Deferred (F β)}

theorem poll_of_delay {delay : Nat} (h : future.delay = delay + 1) (outputs : Array β)
    (waiting : List α) (start : Journal ν σ) :
    poll make Deferred.poll ⟨outputs, some future, waiting⟩ start =
      .ok (.pending ⟨outputs, some { future with delay }, waiting⟩)
        (start.showing [.poll future.slot false]) := by
  change proceed make Deferred.poll outputs future waiting start = _
  unfold proceed
  exact Run.bind_ok (Deferred.poll_of_delay h start) _

/-- A residual ends the traversal, whatever items are waiting. -/
theorem poll_of_residual (hdelay : future.delay = 0) {held : ρ}
    (h : Effect.branch future.value = .error held) (outputs : Array β) (waiting : List α)
    (start : Journal ν σ) :
    poll make Deferred.poll ⟨outputs, some future, waiting⟩ start =
      .ok (.ready (Effect.ofResidual held)) (start.showing future.polls) := by
  change proceed make Deferred.poll outputs future waiting start = _
  unfold proceed
  refine (Run.bind_ok (Deferred.poll_of_ready hdelay start) _).trans ?_
  simp only [h]
  rfl

/-- After an output the same poll goes on with the waiting items. -/
theorem poll_of_output (hdelay : future.delay = 0) {output : β}
    (h : Effect.branch future.value = .ok output) (outputs : Array β) (waiting : List α)
    (start : Journal ν σ) :
    poll make Deferred.poll ⟨outputs, some future, waiting⟩ start =
      poll make Deferred.poll ⟨outputs.push output, none, waiting⟩
        (start.showing future.polls) := by
  change proceed make Deferred.poll outputs future waiting start = _
  unfold proceed
  refine (Run.bind_ok (Deferred.poll_of_ready hdelay start) _).trans ?_
  simp only [h]
  cases waiting <;> rfl

/-- Waiting for a future is resumed as the waiting items are. -/
theorem resumed_current {waiting : List α}
    (hwaiting : ∀ outputs start, Resumed make ⟨outputs, none, waiting⟩ start
      (poll make Deferred.poll ⟨outputs, none, waiting⟩ start))
    (outputs : Array β) (future : Deferred (F β)) (start : Journal ν σ) :
    Resumed make ⟨outputs, some future, waiting⟩ start
      (poll make Deferred.poll ⟨outputs, some future, waiting⟩ start) := by
  cases hdelay : future.delay with
  | succ delay =>
    rw [poll_of_delay hdelay]
    exact .pending vainPolls_nil (start.adds_showing _) (finish_of_delay hdelay ..)
  | zero =>
    have hquiet : vainPolls (future.polls : List (Event ν)) = 0 := by
      rw [Deferred.vainPolls_polls, hdelay]
    cases hbranch : Effect.branch future.value with
    | error held =>
      rw [poll_of_residual hdelay hbranch]
      exact .ready hquiet (start.adds_showing _) (finish_of_residual hbranch ..)
    | ok output =>
      rw [poll_of_output hdelay hbranch]
      exact (hwaiting _ _).of_quiet (start.adds_showing _) hquiet (finish_of_output hbranch ..)

/-- Making the future of an item is quiet, and the same poll goes on to wait for it. -/
theorem resumed_next (hmake : ∀ item, (make item).Quiet) (waiting : List α) (outputs : Array β)
    (start : Journal ν σ) :
    Resumed make ⟨outputs, none, waiting⟩ start
      (poll make Deferred.poll ⟨outputs, none, waiting⟩ start) := by
  -- A poll that gets through an item goes on to the next one with one more output.
  induction waiting generalizing outputs start with
  | nil => exact .ready vainPolls_nil start.adds_nil (finish_nil outputs start)
  | cons item rest ih =>
    obtain ⟨shown, hshown, hquiet⟩ := hmake item start
    cases hrun : make item start with
    | error raised stop =>
      rw [Run.leave_of_error hrun] at hshown
      have hpoll : poll make Deferred.poll ⟨outputs, none, item :: rest⟩ start =
          .error raised stop := Run.bind_error hrun _
      rw [hpoll]
      exact .fault hquiet hshown (finish_cons_of_error hrun outputs rest)
    | ok future middle =>
      rw [Run.leave_of_ok hrun] at hshown
      have hpoll : poll make Deferred.poll ⟨outputs, none, item :: rest⟩ start =
          poll make Deferred.poll ⟨outputs, some future, rest⟩ middle := Run.bind_ok hrun _
      rw [hpoll]
      exact (resumed_current ih outputs future middle).of_quiet hshown hquiet
        (finish_cons hrun outputs rest)

/-- Every poll of a traversal is a piece of finishing it, if making futures is quiet. -/
theorem resumed (hmake : ∀ item, (make item).Quiet) (traversal : Suspended α (Deferred (F β)) β)
    (start : Journal ν σ) :
    Resumed make traversal start (poll make Deferred.poll traversal start) := by
  obtain ⟨outputs, current, waiting⟩ := traversal
  have hwaiting := resumed_next hmake waiting
  cases current with
  | none => exact hwaiting outputs start
  | some future => exact resumed_current hwaiting outputs future start

end OnePoll

/-! ## Many polls -/

/-- Polling a traversal up to a limit is a piece of finishing it: with as many vain polls as the
limit allows, the last of which ends it, and what it leaves finishes in the same way; or with fewer
vain polls to the end. -/
inductive Driven (make : α → Run ν σ (Deferred (F β))) (limit : Nat)
    (traversal : Suspended α (Deferred (F β)) β) (start : Journal ν σ) :
    EStateM.Result Fault (Journal ν σ) (Nat × Option (F (Row β))) → Prop
  | pending {next : Suspended α (Deferred (F β)) β} {stop : Journal ν σ}
      {shown : List (Event ν)} (hvain : vainPolls shown = limit) (hlast : EndsVain shown)
      (hshown : start.Adds shown stop)
      (hfinish : traversal.finish make start = next.finish make stop) :
    Driven make limit traversal start (.ok (limit, none) stop)
  | ready {answer : F (Row β)} {stop : Journal ν σ} {shown : List (Event ν)} {vain : Nat}
      (hvain : vainPolls shown = vain) (hlimit : vain < limit) (hshown : start.Adds shown stop)
      (hfinish : traversal.finish make start = .ok answer stop) :
    Driven make limit traversal start (.ok (vain + 1, some answer) stop)
  | fault {raised : Fault} {stop : Journal ν σ} {shown : List (Event ν)}
      (hvain : vainPolls shown < limit) (hshown : start.Adds shown stop)
      (hfinish : traversal.finish make start = .error raised stop) :
    Driven make limit traversal start (.error raised stop)

/-- After a vain poll the rest of the polls are polls of what it left. -/
theorem Driven.of_pending {make : α → Run ν σ (Deferred (F β))} {limit : Nat}
    {traversal next : Suspended α (Deferred (F β)) β} {start middle : Journal ν σ}
    {run : Run ν σ (Nat × Option (F (Row β)))} (h : Driven make limit next middle (run middle))
    {before : List (Event ν)} {slot : Nat}
    (hbefore : start.Adds (before ++ [.poll slot false]) middle) (hquiet : vainPolls before = 0)
    (hsame : traversal.finish make start = next.finish make middle) :
    Driven make (limit + 1) traversal start
      (((fun driven ↦ (driven.1 + 1, driven.2)) <$> run) middle) := by
  have hends : EndsVain (before ++ [.poll slot false]) := by
    intro event hevent
    rw [List.getLast?_concat, Option.mem_some] at hevent
    rw [← hevent]
    rfl
  have hcount (shown : List (Event ν)) :
      vainPolls (before ++ [.poll slot false] ++ shown) = vainPolls shown + 1 := by
    have hone : vainPolls [(.poll slot false : Event ν)] = 1 := rfl
    rw [vainPolls_append, vainPolls_append, hquiet, hone, Nat.zero_add, Nat.add_comm]
  cases hrun : run middle with
  | error raised stop =>
    rw [hrun] at h
    rw [Run.map_error hrun]
    cases h with
    | fault hvain hshown hfinish =>
      refine .fault ?_ (hbefore.trans hshown) (hsame.trans hfinish)
      rw [hcount]
      exact Nat.succ_lt_succ hvain
  | ok answer stop =>
    rw [hrun] at h
    rw [Run.map_ok hrun]
    cases h with
    | pending hvain hlast hshown hfinish =>
      refine .pending ?_ (endsVain_append hends hlast) (hbefore.trans hshown) (hsame.trans hfinish)
      rw [hcount, hvain]
    | ready hvain hlimit hshown hfinish =>
      refine .ready ?_ (Nat.succ_lt_succ hlimit) (hbefore.trans hshown) (hsame.trans hfinish)
      rw [hcount, hvain]

/-- However often a traversal is polled, it is somewhere on its way to the end. -/
theorem driven {make : α → Run ν σ (Deferred (F β))} (hmake : ∀ item, (make item).Quiet)
    (limit : Nat) (traversal : Suspended α (Deferred (F β)) β) (start : Journal ν σ) :
    Driven make limit traversal start
      (drive (poll make Deferred.poll) limit traversal start) := by
  induction limit generalizing traversal start with
  | zero =>
    have hends : EndsVain ([] : List (Event ν)) := nofun
    exact .pending vainPolls_nil hends start.adds_nil rfl
  | succ limit ih =>
    have hresumed := resumed hmake traversal start
    cases hpoll : poll make Deferred.poll traversal start with
    | error raised stop =>
      rw [hpoll] at hresumed
      have hdrive : drive (poll make Deferred.poll) (limit + 1) traversal start =
          .error raised stop := Run.bind_error hpoll _
      rw [hdrive]
      cases hresumed with
      | fault hquiet hshown hfinish =>
        exact .fault (Nat.lt_succ_of_le (hquiet ▸ Nat.zero_le limit)) hshown hfinish
    | ok answer stop =>
      rw [hpoll] at hresumed
      cases hresumed with
      | @ready answer _ _ hquiet hshown hfinish =>
        have hdrive : drive (poll make Deferred.poll) (limit + 1) traversal start =
            .ok (1, some answer) stop := Run.bind_ok hpoll _
        rw [hdrive]
        exact .ready hquiet (Nat.succ_pos limit) hshown hfinish
      | @pending next _ _ _ hquiet hshown hfinish =>
        have hdrive : drive (poll make Deferred.poll) (limit + 1) traversal start =
            ((fun driven ↦ (driven.1 + 1, driven.2)) <$>
              drive (poll make Deferred.poll) limit next) stop :=
          (Run.bind_ok hpoll _).trans (congrFun (map_eq_pure_bind _ _).symm stop)
        rw [hdrive]
        exact (ih next stop).of_pending hshown hquiet hfinish

end Suspended

end PositionalRecord
