import PositionalRecord.Proofs.Callbacks

/-!
# Schedules

Which calls and polls a suspended traversal makes is known in advance. Its schedule has one leg for
every field up to and including the first residual: the call that makes the future, unless the
field holds the future itself, then the vain polls of that future, then the poll that is ready. A
limit on the polls of the traversal cuts the schedule at a vain poll, be it in the middle of a leg.

The schedule is what finishing the traversal without interruption shows; that every number of polls
shows a prefix of this is what `Suspended.driven` says.
-/

namespace PositionalRecord

variable {ν σ α β γ ρ : Type} {F : Type → Type} [Effect F ρ]

/-! ## Legs -/

/-- What a traversal does for one field: the call that makes the future, with its arguments, if
there is a call, and the polls of the future, of which `delay` are vain. -/
structure Leg (ν : Type) where
  slot : Nat
  call : Option (List ν)
  delay : Nat

def Leg.events (leg : Leg ν) : List (Event ν) :=
  leg.call.toList.map (.call leg.slot) ++
    List.replicate leg.delay (.poll leg.slot false) ++ [.poll leg.slot true]

def schedule (legs : List (Leg ν)) : List (Event ν) := legs.flatMap Leg.events

/-- The number of vain polls in a schedule. -/
def totalDelay (legs : List (Leg ν)) : Nat := (legs.map Leg.delay).foldr (· + ·) 0

theorem Leg.vainPolls_events (leg : Leg ν) : vainPolls leg.events = leg.delay := by
  have hpolls : leg.events = leg.call.toList.map (.call leg.slot) ++
      (⟨leg.slot, leg.delay, ()⟩ : Deferred Unit).polls := List.append_assoc ..
  have hcall : vainPolls (leg.call.toList.map (.call leg.slot)) = 0 := by
    cases leg.call <;> rfl
  rw [hpolls, vainPolls_append, hcall, Deferred.vainPolls_polls, Nat.zero_add]

theorem vainPolls_schedule (legs : List (Leg ν)) : vainPolls (schedule legs) = totalDelay legs := by
  induction legs with
  | nil => rfl
  | cons leg rest ih =>
    calc
      vainPolls (schedule (leg :: rest))
      _ = vainPolls (leg.events ++ schedule rest) := rfl
      _ = leg.delay + totalDelay rest := by rw [vainPolls_append, leg.vainPolls_events, ih]
      _ = totalDelay (leg :: rest) := rfl

/-! ## Cutting a schedule -/

/-- The events up to and including the vain poll that reaches the limit, or all if there are fewer
vain polls. -/
def untilVain : Nat → List (Event ν) → List (Event ν)
  | 0, _ => []
  | _ + 1, [] => []
  | limit + 1, event :: rest =>
    event :: untilVain (if event.isVain then limit else limit + 1) rest

/-- Nothing is cut off if the limit is above the number of vain polls. -/
theorem untilVain_of_lt {limit : Nat} {events : List (Event ν)} (h : vainPolls events < limit) :
    untilVain limit events = events := by
  induction events generalizing limit with
  | nil => cases limit <;> rfl
  | cons event rest ih =>
    cases limit with
    | zero => exact absurd h (Nat.not_lt_zero _)
    | succ limit =>
      have hrest : vainPolls rest < if event.isVain then limit else limit + 1 := by
        rw [vainPolls_cons] at h
        split at h <;> simp_all
      rw [untilVain, ih hrest]

theorem EndsVain.of_cons {event : Event ν} {rest : List (Event ν)}
    (h : EndsVain (event :: rest)) : EndsVain rest := by
  cases rest with
  | nil => nofun
  | cons next rest => exact h

theorem EndsVain.vainPolls_pos {event : Event ν} {rest : List (Event ν)}
    (h : EndsVain (event :: rest)) : 0 < vainPolls (event :: rest) := by
  have hlast := List.getLast?_eq_some_getLast (List.cons_ne_nil event rest)
  exact List.countP_pos_iff.mpr ⟨_, List.getLast_mem _, h _ hlast⟩

/-- Cut off is all that comes after the vain poll that reaches the limit. -/
theorem untilVain_append {limit : Nat} {shown : List (Event ν)} (hvain : vainPolls shown = limit)
    (hends : EndsVain shown) (later : List (Event ν)) : untilVain limit (shown ++ later) = shown := by
  induction shown generalizing limit with
  | nil =>
    subst hvain
    cases later <;> rfl
  | cons event rest ih =>
    cases limit with
    | zero => exact absurd hvain (Nat.ne_of_gt hends.vainPolls_pos)
    | succ limit =>
      have hrest : vainPolls rest = if event.isVain then limit else limit + 1 := by
        rw [vainPolls_cons] at hvain
        split at hvain <;> simp_all
      rw [List.cons_append, untilVain, ih hrest hends.of_cons]

/-! ## Following a schedule -/

/-- What polling up to a limit gives if these legs are the schedule, at the end of which is this
answer: one poll for each vain poll of a future, and one more, so far as the limit allows; the
answer exactly if that is all of them; and in the trace the schedule up to where the limit cuts
it. -/
def OnSchedule {δ : Type} (legs : List (Leg ν)) (answer : δ) (limit : Nat) (start : Journal ν σ)
    (result : EStateM.Result Fault (Journal ν σ) (Nat × Option δ)) : Prop :=
  ∃ stop,
    result = .ok (min limit (1 + totalDelay legs),
      if 1 + totalDelay legs ≤ limit then some answer else none) stop ∧
    start.Adds (untilVain limit (schedule legs)) stop

/-- A traversal follows the schedule that finishing it without interruption shows. -/
theorem OnSchedule.of_finish {make : α → Run ν σ (Deferred (F β))}
    (hmake : ∀ item, (make item).Quiet) {traversal : Suspended α (Deferred (F β)) β}
    {start finish : Journal ν σ} {answer : F (Row β)} {legs : List (Leg ν)}
    (hfinish : traversal.finish make start = .ok answer finish)
    (hlegs : start.Adds (schedule legs) finish) (limit : Nat) :
    OnSchedule legs answer limit start
      (drive (Suspended.poll make Deferred.poll) limit traversal start) := by
  have hdriven := Suspended.driven hmake limit traversal start
  generalize drive (Suspended.poll make Deferred.poll) limit traversal start = result at hdriven ⊢
  cases hdriven with
  | @pending next stop shown hvain hends hshown hsame =>
    -- The rest of the schedule comes after a vain poll, so the limit cuts it off there.
    rw [← Run.leave_of_ok hfinish] at hlegs
    obtain ⟨later, hschedule⟩ := Suspended.shown_append hmake hshown hsame hlegs
    have htotal : limit ≤ totalDelay legs := by
      rw [← vainPolls_schedule, ← hschedule, vainPolls_append, hvain]
      exact Nat.le_add_right ..
    refine ⟨stop, ?_, ?_⟩
    · rw [Nat.min_eq_left (by omega), if_neg (by omega)]
    · rw [← hschedule, untilVain_append hvain hends]
      exact hshown
  | @ready found stop shown vain hvain hlimit hshown hsame =>
    cases hsame.symm.trans hfinish
    have hschedule : shown = schedule legs := hshown.unique hlegs
    have htotal : vain = totalDelay legs := by
      rw [← hvain, hschedule, vainPolls_schedule]
    refine ⟨finish, ?_, ?_⟩
    · rw [Nat.min_eq_right (by omega), if_pos (by omega), htotal, Nat.add_comm]
    · rw [← hschedule, untilVain_of_lt (hvain ▸ hlimit)]
      exact hshown
  | fault _ _ hsame => cases hsame.symm.trans hfinish

/-! ## The legs that are reached -/

/-- The number of effects up to and including the first that holds a residual, or of all. -/
def reach (effects : List (F β)) : Nat :=
  match firstError (effects.map Effect.branch) with
  | none => effects.length
  | some (k, _) => k + 1

/-- Plain values hold no residual. -/
theorem reach_id (values : List β) : reach (F := Id) values = values.length := by
  have hall : values.map (fun value ↦ Effect.branch (F := Id) value) = values.map .ok := rfl
  rw [reach, (firstError_eq_none_iff.mpr hall).1]

/-- A traversal whose calls answer these effects comes to what the effects come to, after the calls
that are reached. -/
theorem Row.traverse_of_effects {f : α → Run ν σ (F β)} {row : Row α} {start : Journal ν σ}
    {effects : List (F β)} (h : endings f row.toList start =
      effects.map fun effect ↦ (Effect.branch effect).mapError .residual) :
    row.traverse f start =
      .ok (Row.ofList effects).sequence (afterCalls f (row.toList.take (reach effects)) start) := by
  have hlength : row.toList.length = effects.length := by
    rw [← length_endings f row.toList start, h, List.length_map]
  have hattempts : endings f row.toList start =
      (effects.map Effect.branch).map (·.mapError .residual) := by
    rw [h, List.map_map]
    rfl
  rw [Row.traverse_eq, Row.sequence_eq, hattempts, firstError_map_mapError, outputs_map_mapError,
    Row.toList_ofList, reach]
  cases firstError (effects.map Effect.branch) with
  | none =>
    have hall : row.toList.take effects.length = row.toList := by rw [← hlength, List.take_length]
    simp only [hall, Option.map_none]
  | some found => rfl

/-! ## Schedules of calls -/

/-- The effects that `f` answers on the items, one after the other from this world. -/
def effectsOf (f : α → StateM σ (F β)) (items : List α) (own : σ) : List (F β) :=
  ((items.mapM f).run own).1

theorem effectsOf_cons (f : α → StateM σ (F β)) (item : α) (rest : List α) (own : σ) :
    effectsOf f (item :: rest) own =
      ((f item).run own).1 :: effectsOf f rest ((f item).run own).2 := by
  rw [effectsOf, List.mapM_cons]
  rfl

/-- The legs of calls with these arguments and delays, numbered from `first` on. -/
def callLegs (arguments : α → List ν) (delays : Nat → Nat) (items : List α) (first : Nat) :
    List (Leg ν) :=
  (items.zipIdx first).map fun numbered ↦
    ⟨numbered.2, some (arguments numbered.1), delays numbered.2⟩

section Calls

variable (f : α → StateM σ (F β)) (arguments : α → List ν) (delays : Nat → Nat)

theorem endings_ofState (items : List α) (start : Journal ν (Tallied σ)) :
    endings (makeAwaited ((Callback.ofState f).defer arguments delays)) items start =
      (effectsOf f items start.world.own).map
        fun effect ↦ (Effect.branch effect).mapError .residual := by
  induction items generalizing start with
  | nil => rfl
  | cons item rest ih =>
    have hgive := (Callback.ofState f).makeAwaited_defer_eq arguments delays item start
    rw [endings, Run.ending_of_give hgive, Run.leave_of_give hgive, ih, effectsOf_cons]
    rfl

theorem afterCalls_ofState (items : List α) (start : Journal ν (Tallied σ)) :
    start.Adds (schedule (callLegs arguments delays items start.world.calls))
      (afterCalls (makeAwaited ((Callback.ofState f).defer arguments delays)) items start) := by
  induction items generalizing start with
  | nil => exact start.adds_nil
  | cons item rest ih =>
    have hgive := (Callback.ofState f).makeAwaited_defer_eq arguments delays item start
    rw [afterCalls_cons, Run.leave_of_give hgive]
    exact ((Callback.ofState f).awaited_adds arguments delays item start).trans (ih _)

/-- A traversal that calls for its futures follows the schedule of the calls that are reached. -/
theorem calls_onSchedule (items : List α) (limit : Nat) (start : Journal ν (Tallied σ)) :
    OnSchedule
      (callLegs arguments delays (items.take (reach (effectsOf f items start.world.own)))
        start.world.calls)
      (Row.ofList (effectsOf f items start.world.own)).sequence limit start
      (drive (Suspended.poll ((Callback.ofState f).defer arguments delays) Deferred.poll) limit
        (Suspended.start items) start) := by
  refine OnSchedule.of_finish ((Callback.ofState f).defer_quiet arguments delays) ?_
    (afterCalls_ofState f arguments delays _ start) limit
  rw [Suspended.finish_start]
  exact Row.traverse_of_effects (endings_ofState f arguments delays items start)

end Calls

/-! ## Schedules of futures -/

/-- The leg of a future that is there already. -/
def Deferred.leg (future : Deferred β) : Leg ν := ⟨future.slot, none, future.delay⟩

theorem endings_await (futures : List (Deferred (F β))) (start : Journal ν σ) :
    endings (makeAwaited pure) futures start =
      (futures.map Deferred.value).map
        fun effect ↦ (Effect.branch effect).mapError .residual := by
  induction futures generalizing start with
  | nil => rfl
  | cons future rest ih =>
    rw [endings, ih]
    rfl

theorem afterCalls_await (futures : List (Deferred (F β))) (start : Journal ν σ) :
    start.Adds (schedule (futures.map Deferred.leg)) (afterCalls (makeAwaited pure) futures start) := by
  induction futures generalizing start with
  | nil => exact start.adds_nil
  | cons future rest ih => exact (start.adds_showing future.polls).trans (ih _)

/-- A traversal of futures follows the schedule of the futures that are reached. -/
theorem futures_onSchedule (futures : List (Deferred (F β))) (limit : Nat) (start : Journal ν σ) :
    OnSchedule ((futures.take (reach (futures.map Deferred.value))).map Deferred.leg)
      (Row.ofList (futures.map Deferred.value)).sequence limit start
      (drive (Suspended.poll pure Deferred.poll) limit (Suspended.start futures) start) := by
  refine OnSchedule.of_finish Run.quiet_pure ?_ (afterCalls_await _ start) limit
  rw [Suspended.finish_start]
  exact Row.traverse_of_effects (endings_await futures start)

/-! ## All traversals -/

/-- However often a suspended traversal is polled, it is where its schedule says. Of one row, of
two rows of one length, and of a row of futures: the legs are those of the fields up to and
including the first that holds a residual, which for plain values are all fields. -/
theorem polling_follows_schedule (f : α → StateM σ (F γ)) (arguments : α → List ν) (row : Row α)
    (g : α × β → StateM σ (F γ)) (pairArguments : α × β → List ν) {left : Row α} {right : Row β}
    (hlength : left.length = right.length) (pairing : Pairing) (delays : Nat → Nat)
    (futures : Row (Deferred (F γ))) (limit : Nat) (start : Journal ν (Tallied σ)) :
    OnSchedule
        (callLegs arguments delays
          (row.toList.take (reach (effectsOf f row.toList start.world.own))) start.world.calls)
        (Row.ofList (effectsOf f row.toList start.world.own)).sequence limit start
        (drive (Suspended.poll ((Callback.ofState f).defer arguments delays) Deferred.poll) limit
          row.suspend start) ∧
      (∃ traversal, Row.suspendZip pairing left right = .ok traversal ∧
        OnSchedule
          (callLegs pairArguments delays
            ((left.toList.zip right.toList).take
              (reach (effectsOf g (left.toList.zip right.toList) start.world.own)))
            start.world.calls)
          (Row.ofList (effectsOf g (left.toList.zip right.toList) start.world.own)).sequence limit
          start
          (drive (Suspended.poll ((Callback.ofState g).defer pairArguments delays) Deferred.poll)
            limit traversal start)) ∧
      OnSchedule
        ((futures.toList.take (reach (futures.toList.map Deferred.value))).map Deferred.leg)
        (Row.ofList (futures.toList.map Deferred.value)).sequence limit start
        (drive (Suspended.poll pure Deferred.poll) limit futures.suspend start) ∧
      ∀ values : List γ, reach (F := Id) values = values.length := by
  refine ⟨calls_onSchedule f arguments delays row.toList limit start, ?_,
    futures_onSchedule futures.toList limit start, reach_id⟩
  exact ⟨_, Row.suspendZip_eq pairing hlength, calls_onSchedule g pairArguments delays _ limit start⟩

/-- Divides, and counts its calls in its world. -/
def countingQuotient (operands : Nat × Nat) : StateM Nat (Except Nat Nat) := fun calls ↦
  (if operands.2 = 0 then .error operands.1 else .ok (operands.1 / operands.2), calls + 1)

/-- The futures wait for none, two and four vain polls. One poll ends within the second leg; three
reach the residual there, and so there is no third leg. -/
theorem polling_cut_within_second_leg :
    (Row.ofList [8, 6, 4]).length = (Row.ofList [2, 0, 1]).length ∧
      (∃ stop,
        drive (Suspended.poll ((Callback.ofState fun divisor ↦ countingQuotient (6, divisor)).defer
          (fun divisor ↦ [divisor]) (2 * ·)) Deferred.poll) 1 (Row.ofList [2, 0, 1]).suspend
          (.start ⟨0, 0⟩) = .ok (1, none) stop ∧
        stop.trace = #[.call 0 [2], .poll 0 true, .call 1 [0], .poll 1 false]) ∧
      ∃ traversal, Row.suspendZip .suspended (.ofList [8, 6, 4]) (.ofList [2, 0, 1]) =
          .ok traversal ∧
        ∃ stop, drive (Suspended.poll ((Callback.ofState countingQuotient).defer
            (fun operands ↦ [operands.1, operands.2]) (2 * ·)) Deferred.poll) 3 traversal
            (.start ⟨0, 0⟩) = .ok (3, some (.error 6)) stop ∧
          stop.trace = #[.call 0 [8, 2], .poll 0 true, .call 1 [6, 0], .poll 1 false,
            .poll 1 false, .poll 1 true] := by
  have hlength : (Row.ofList [8, 6, 4]).length = (Row.ofList [2, 0, 1]).length := rfl
  have hpolled := polling_follows_schedule (fun divisor ↦ countingQuotient (6, divisor))
    (fun divisor ↦ [divisor]) (.ofList [2, 0, 1]) countingQuotient
    (fun operands ↦ [operands.1, operands.2]) hlength .suspended (2 * ·) .empty
  obtain ⟨⟨first, hfirst, hshown⟩, -⟩ := hpolled 1 (.start ⟨0, 0⟩)
  obtain ⟨-, ⟨traversal, hzip, second, hsecond, hall⟩, -⟩ := hpolled 3 (.start ⟨0, 0⟩)
  exact ⟨hlength, ⟨first, hfirst, hshown⟩, traversal, hzip, second, hsecond, hall⟩

end PositionalRecord
