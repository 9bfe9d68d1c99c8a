import PositionalRecord.Proofs.Callbacks

/-!
# Synchrony

A suspended traversal does what the direct traversal does, apart from the polls: it makes the same
calls in the same order, leaves the callback's world and the log in the same state, and comes to
the same answer or the same fault. Deferring the answers only adds polls, and this is kept when
runs are put together; so it holds of finishing a traversal without interruption, and then of
polling it until it is ready.
-/

namespace PositionalRecord

variable {ν σ α β γ δ ρ : Type} {F : Type → Type} [Effect F ρ]

/-! ## Apart from the polls -/

def Event.isCall : Event ν → Bool
  | .call .. => true
  | .poll .. => false

/-- The journal without the polls in its trace. -/
def Journal.unpolled (journal : Journal ν σ) : Journal ν σ :=
  { journal with trace := (journal.trace.toList.filter Event.isCall).toArray }

/-- The result without the polls in its trace. -/
def unpolled : EStateM.Result Fault (Journal ν σ) α → EStateM.Result Fault (Journal ν σ) α
  | .ok answer finish => .ok answer finish.unpolled
  | .error fault stop => .error fault stop.unpolled

theorem Journal.unpolled_showing (journal : Journal ν σ) {events : List (Event ν)}
    (h : ∀ event ∈ events, ¬event.isCall) : (journal.showing events).unpolled = journal.unpolled := by
  have hnone : events.filter Event.isCall = [] := List.filter_eq_nil_iff.mpr h
  simp only [unpolled, showing, Array.toList_append, List.filter_append, hnone, List.append_nil]

namespace Run

/-- Apart from the polls that it makes, the run does what the other does. -/
def AgreesWith (run direct : Run ν σ α) : Prop :=
  ∀ start : Journal ν σ, unpolled (run start) = direct start.unpolled

theorem agreesWith_pure (answer : α) : AgreesWith (pure answer : Run ν σ α) (pure answer) :=
  fun _ ↦ rfl

theorem AgreesWith.bind {run direct : Run ν σ α} (h : run.AgreesWith direct)
    {next directNext : α → Run ν σ β} (hnext : ∀ answer, (next answer).AgreesWith (directNext answer)) :
    (run >>= next).AgreesWith (direct >>= directNext) := by
  intro start
  have hstart := h start
  cases hrun : run start with
  | ok answer middle =>
    rw [hrun] at hstart
    rw [bind_ok hrun, bind_ok hstart.symm]
    exact hnext answer middle
  | error fault stop =>
    rw [hrun] at hstart
    rw [bind_error hrun, bind_error hstart.symm]
    rfl

theorem AgreesWith.map {run direct : Run ν σ α} (h : run.AgreesWith direct) (f : α → β) :
    (f <$> run).AgreesWith (f <$> direct) := by
  rw [map_eq_pure_bind, map_eq_pure_bind]
  exact h.bind fun answer ↦ agreesWith_pure (f answer)

end Run

/-- A collection agrees with another if every call does. -/
theorem collect_agreesWith {f direct : α → Run ν σ (F β)}
    (h : ∀ item, (f item).AgreesWith (direct item)) (items : List α) :
    (collect f items).AgreesWith (collect direct items) := by
  induction items with
  | nil => exact Run.agreesWith_pure _
  | cons item rest ih =>
    rw [collect_cons, collect_cons]
    apply (h item).bind
    intro effect
    cases Effect.branch effect with
    | error held => exact Run.agreesWith_pure _
    | ok output => exact ih.map _

theorem Row.traverse_agreesWith {f direct : α → Run ν σ (F β)}
    (h : ∀ item, (f item).AgreesWith (direct item)) (row : Row α) :
    (row.traverse f).AgreesWith (row.traverse direct) := by
  rw [traverse_eq_collect, traverse_eq_collect]
  exact (collect_agreesWith h row.toList).map _

/-! ## Awaited futures -/

theorem Deferred.await_agreesWith (future : Deferred β) :
    Run.AgreesWith (future.await : Run ν σ β) (pure future.value) := by
  have hpolls : ∀ event ∈ (future.polls : List (Event ν)), ¬event.isCall := by
    simp +contextual [polls, Event.isCall, or_imp]
  intro start
  rw [await, unpolled, start.unpolled_showing hpolls]
  rfl

/-- A call shows itself, and so does not depend on the polls before it. -/
theorem Callback.callNumbered_agreesWith (f : Callback σ α β) (arguments : α → List ν) (item : α) :
    (f.callNumbered arguments item).AgreesWith (f.callNumbered arguments item) := by
  intro start
  have hcalled : (f.called arguments item start).unpolled =
      f.called arguments item start.unpolled := by
    simp [called, Journal.unpolled, Event.isCall]
  rw [callNumbered_eq, callNumbered_eq, ← hcalled]
  change unpolled (Run.give ((f item start.world.own).1.map (start.world.calls, ·)) _) =
    Run.give ((f item start.world.own).1.map (start.world.calls, ·)) _
  cases (f item start.world.own).1 <;> rfl

/-- A future that is awaited at once gives what calling its callback directly gives. -/
theorem Callback.makeAwaited_agreesWith (f : Callback σ α β) (arguments : α → List ν)
    (delays : Nat → Nat) (item : α) :
    (makeAwaited (f.defer arguments delays) item).AgreesWith (f.call arguments item) := by
  have hcall : f.call arguments item =
      f.callNumbered arguments item >>= fun answer ↦ pure answer.2 := map_eq_pure_bind _ _
  have hmake : makeAwaited (f.defer arguments delays) item =
      f.callNumbered arguments item >>= fun answer ↦
        Deferred.await ⟨answer.1, delays answer.1, answer.2⟩ := by
    rw [makeAwaited, defer, bind_map_left]
  rw [hcall, hmake]
  exact (f.callNumbered_agreesWith arguments item).bind fun answer ↦ Deferred.await_agreesWith _

/-! ## Direct traversals -/

section Direct

variable {m : Type → Type} [Monad m] [LawfulMonad m]

theorem collect_id (f : α → m β) (items : List α) :
    collect (F := Id) (ρ := Empty) f items = .ok <$> items.mapM f := by
  induction items with
  | nil => simp [collect]
  | cons item rest ih =>
    rw [collect, List.mapM_cons, ih, map_bind]
    apply bind_congr
    intro output
    have hbranch : Effect.branch (F := Id) output = .ok output := rfl
    simp only [hbranch, bind_map_left, map_bind, map_pure]

/-- Plain values are traversed without stops. -/
theorem Row.traverse_id (f : α → m β) (row : Row α) :
    row.traverse (F := Id) (ρ := Empty) f = row.mapM f := by
  rw [traverse_eq_collect, collect_id, Functor.map_map]
  rfl

theorem zipWithM_loop_eq (f : α → β → m γ) (left : List α) (right : List β) (found : Array γ) :
    List.zipWithM.loop f left right found =
      (found.toList ++ ·) <$> (left.zip right).mapM fun pair ↦ f pair.1 pair.2 := by
  induction left generalizing right found with
  | nil => simp [List.zipWithM.loop]
  | cons item rest ih =>
    cases right with
    | nil => simp [List.zipWithM.loop]
    | cons other others => simp [List.zipWithM.loop, List.mapM_cons, ih]

theorem zipWithM_eq_mapM_zip (f : α → β → m γ) (left : List α) (right : List β) :
    List.zipWithM f left right = (left.zip right).mapM fun pair ↦ f pair.1 pair.2 := by
  rw [List.zipWithM, zipWithM_loop_eq]
  simp only [List.nil_append, id_map']

/-- Rows of one length are called on as the row of their pairs. -/
theorem Row.zipWithM_eq (f : α × β → m γ) {left : Row α} {right : Row β}
    (h : left.length = right.length) :
    Row.zipWithM (fun a b ↦ f (a, b)) left right =
      .ok ((ofList (left.toList.zip right.toList)).mapM f) := by
  rw [Row.zipWithM, Violation.checkShape_of_eq .plain h, zipWithM_eq_mapM_zip]
  rfl

theorem collect_pure (view : α → F β) (items : List α) :
    collect (fun item ↦ (pure (view item) : m (F β))) items =
      pure (Id.run (collect pure (items.map view))) := by
  induction items with
  | nil => rfl
  | cons item rest ih =>
    rw [List.map_cons, collect, collect, pure_bind, pure_bind]
    cases Effect.branch (view item) with
    | error held => rfl
    | ok output =>
      simp only [ih, pure_bind, Id.run_bind]
      cases Id.run (collect pure (rest.map view)) <;> rfl

/-- Effects that are there already are traversed without calls. -/
theorem Row.traverse_pure (view : α → F β) (row : Row α) :
    row.traverse (fun item ↦ (pure (view item) : m (F β))) = pure (row.map view).sequence := by
  rw [traverse_eq_collect, collect_pure, map_pure, sequence, traverse_eq_collect, toList_map,
    Id.run_map]

theorem Row.mapM_pure (view : α → β) (row : Row α) :
    row.mapM (fun item ↦ (pure (view item) : m β)) = pure (row.map view) := by
  rw [mapM, List.mapM_pure, map_pure, ← toList_map, ofList_toList]

end Direct

/-! ## Polled until ready -/

/-- However often it is polled, the polled run either is not ready, which takes fewer polls than
the bound, or has come to what the direct run comes to, apart from the polls. -/
def Synchronous (polled : Nat → Run ν σ (Nat × Option δ)) (direct : Run ν σ δ) (bound : Nat)
    (start : Journal ν σ) : Prop :=
  ∀ limit,
    (limit < bound ∧ ∃ stop, polled limit start = .ok (limit, none) stop) ∨
      ∃ polls ≤ limit, unpolled (polled limit start) =
        ((fun answer ↦ (polls, some answer)) <$> direct) start.unpolled

/-- A traversal is polled to where finishing it without interruption gets. -/
theorem Synchronous.of_finish {make : α → Run ν σ (Deferred (F β))}
    (hmake : ∀ item, (make item).Quiet) {traversal : Suspended α (Deferred (F β)) β}
    {direct : Run ν σ (F (Row β))} (hdirect : (traversal.finish make).AgreesWith direct)
    {start : Journal ν σ} {all : List (Event ν)}
    (hall : start.Adds all ((traversal.finish make).leave start)) {bound : Nat}
    (hbound : vainPolls all < bound) :
    Synchronous (fun limit ↦ drive (Suspended.poll make Deferred.poll) limit traversal) direct bound
      start := by
  intro limit
  have hdriven := Suspended.driven hmake limit traversal start
  have hstart := hdirect start
  dsimp only
  generalize drive (Suspended.poll make Deferred.poll) limit traversal start = result at hdriven ⊢
  cases hdriven with
  | @pending next stop shown hvain _ hshown hsame =>
    obtain ⟨later, hsplit⟩ := Suspended.shown_append hmake hshown hsame hall
    refine .inl ⟨?_, stop, rfl⟩
    calc
      limit = vainPolls shown := hvain.symm
      _ ≤ vainPolls (shown ++ later) := by
        rw [vainPolls_append]
        exact Nat.le_add_right ..
      _ < bound := hsplit ▸ hbound
  | @ready answer stop _ vain _ hlimit _ hsame =>
    rw [hsame] at hstart
    exact .inr ⟨vain + 1, hlimit,
      (Run.map_ok hstart.symm fun answer ↦ (vain + 1, some answer)).symm⟩
  | @fault raised stop _ _ _ hsame =>
    rw [hsame] at hstart
    exact .inr ⟨0, Nat.zero_le limit, (Run.map_error hstart.symm _).symm⟩

/-- A traversal agrees with the direct one if awaiting its futures agrees with the direct calls. -/
theorem Synchronous.of_calls {make : α → Run ν σ (Deferred (F β))}
    (hmake : ∀ item, (make item).Quiet) {direct : α → Run ν σ (F β)}
    (hdirect : ∀ item, (makeAwaited make item).AgreesWith (direct item)) {items : List α}
    {start : Journal ν σ} {bound : Nat}
    (hbound : ∀ count, ∃ shown,
      start.Adds shown (afterCalls (makeAwaited make) (items.take count) start) ∧
        vainPolls shown < bound) :
    Synchronous (fun limit ↦ drive (Suspended.poll make Deferred.poll) limit (.start items))
      ((Row.ofList items).traverse direct) bound start := by
  obtain ⟨count, hleave⟩ := leave_collect (makeAwaited make) items start
  obtain ⟨shown, hshown, hless⟩ := hbound count
  have hfinish := Suspended.finish_start make items
  have hleft : ((Suspended.start items).finish make).leave start =
      afterCalls (makeAwaited make) (items.take count) start := by
    rw [hfinish, Row.traverse_eq_collect, Run.leave_map]
    exact hleave
  exact .of_finish hmake (hfinish ▸ Row.traverse_agreesWith hdirect _) (hleft ▸ hshown) hless

/-! ## Bounds -/

theorem pollBound_pos (delays : List Nat) : 0 < pollBound delays := by
  induction delays with
  | nil => exact Nat.one_pos
  | cons delay rest ih => exact Nat.add_pos_right delay ih

/-- A call for a future that is awaited makes no more vain polls than its delay. -/
theorem Callback.vainPolls_polls_le (f : Callback σ α β) (delays : Nat → Nat) (item : α)
    (world : Tallied σ) : vainPolls (f.polls delays item world : List (Event ν)) ≤ delays world.calls := by
  unfold polls
  cases (f item world.own).1 with
  | ok value => exact Nat.le_of_eq (Deferred.vainPolls_polls _)
  | error text => exact Nat.zero_le _

/-- The first few calls make fewer vain polls than the bound for all calls. -/
theorem Callback.afterCalls_vainPolls_lt (f : Callback σ α β) (arguments : α → List ν)
    (delays : Nat → Nat) (items : List α) (count : Nat) (start : Journal ν (Tallied σ)) :
    ∃ shown,
      start.Adds shown
        (afterCalls (makeAwaited (f.defer arguments delays)) (items.take count) start) ∧
      vainPolls shown < pollBound ((List.range' start.world.calls items.length).map delays) := by
  induction items generalizing count start with
  | nil =>
    rw [List.take_nil]
    exact ⟨[], start.adds_nil, Nat.one_pos⟩
  | cons item rest ih =>
    cases count with
    | zero => exact ⟨[], start.adds_nil, pollBound_pos _⟩
    | succ count =>
      have hgive := f.makeAwaited_defer_eq arguments delays item start
      have hfirst := f.awaited_adds arguments delays item start
      obtain ⟨later, hlater, hless⟩ := ih count (f.awaited arguments delays item start)
      rw [← Run.leave_of_give hgive] at hfirst hlater
      refine ⟨_, hfirst.trans hlater, ?_⟩
      have hcall : vainPolls [(.call start.world.calls (arguments item) : Event ν)] = 0 := rfl
      rw [← List.singleton_append, vainPolls_append, vainPolls_append, hcall, Nat.zero_add]
      exact Nat.add_lt_add_of_le_of_lt (f.vainPolls_polls_le delays item start.world) hless

theorem Deferred.afterCalls_vainPolls_lt (futures : List (Deferred (F β))) (count : Nat)
    (start : Journal ν σ) :
    ∃ shown,
      start.Adds shown (afterCalls (makeAwaited pure) (futures.take count) start) ∧
      vainPolls shown < pollBound (futures.map Deferred.delay) := by
  induction futures generalizing count start with
  | nil =>
    rw [List.take_nil]
    exact ⟨[], start.adds_nil, Nat.one_pos⟩
  | cons future rest ih =>
    cases count with
    | zero => exact ⟨[], start.adds_nil, pollBound_pos _⟩
    | succ count =>
      obtain ⟨later, hlater, hless⟩ := ih count (start.showing future.polls)
      refine ⟨_, (start.adds_showing future.polls).trans hlater, ?_⟩
      rw [vainPolls_append, Deferred.vainPolls_polls]
      exact Nat.add_lt_add_left hless future.delay

/-! ## All traversals -/

/-- A suspended traversal that calls for its futures agrees with the direct one. -/
theorem Callback.synchronous (f : Callback σ α (F β)) (arguments : α → List ν)
    (delays : Nat → Nat) (items : List α) (start : Journal ν (Tallied σ)) :
    Synchronous
      (fun limit ↦
        drive (Suspended.poll (f.defer arguments delays) Deferred.poll) limit (.start items))
      ((Row.ofList items).traverse (f.call arguments))
      (pollBound ((List.range' start.world.calls items.length).map delays)) start :=
  .of_calls (f.defer_quiet arguments delays) (f.makeAwaited_agreesWith arguments delays)
    fun count ↦ f.afterCalls_vainPolls_lt arguments delays items count start

/-- A suspended traversal of futures agrees with the direct one of their values. -/
theorem Deferred.synchronous (futures : List (Deferred (F β))) (start : Journal ν σ) :
    Synchronous (fun limit ↦ drive (Suspended.poll pure Deferred.poll) limit (.start futures))
      ((Row.ofList futures).traverse fun future ↦ pure future.value)
      (pollBound (futures.map Deferred.delay)) start :=
  .of_calls Run.quiet_pure Deferred.await_agreesWith
    fun count ↦ Deferred.afterCalls_vainPolls_lt futures count start

/-- Polled until they are ready, suspended traversals agree with the direct ones, whatever the
delays of the futures are. Of one row, of two rows of one length, and of a row of futures: first
with plain values, then with effects, which stop both at the same residual. -/
theorem suspended_agree (f : Callback σ α γ) (tryF : Callback σ α (F γ)) (arguments : α → List ν)
    (row : Row α) (g : Callback σ (α × β) γ) (tryG : Callback σ (α × β) (F γ))
    (pairArguments : α × β → List ν) {left : Row α} {right : Row β}
    (hlength : left.length = right.length) (futures : Row (Deferred γ))
    (tryFutures : Row (Deferred (F γ))) (delays : Nat → Nat) (start : Journal ν (Tallied σ)) :
    Synchronous
        (fun limit ↦ drive (Suspended.poll (F := Id) (f.defer arguments delays) Deferred.poll) limit
          row.suspend)
        (row.mapM (f.call arguments))
        (pollBound ((List.range' start.world.calls row.length).map delays)) start ∧
      Synchronous
        (fun limit ↦ drive (Suspended.poll (tryF.defer arguments delays) Deferred.poll) limit
          row.suspend)
        (row.traverse (tryF.call arguments))
        (pollBound ((List.range' start.world.calls row.length).map delays)) start ∧
      (∃ traversal direct,
        Row.suspendZip .suspended left right = .ok traversal ∧
        Row.zipWithM (fun a b ↦ g.call pairArguments (a, b)) left right = .ok direct ∧
        Synchronous
          (fun limit ↦ drive (Suspended.poll (F := Id) (g.defer pairArguments delays) Deferred.poll)
            limit traversal)
          direct (pollBound ((List.range' start.world.calls left.length).map delays)) start) ∧
      (∃ traversal direct,
        Row.suspendZip .effectfulSuspended left right = .ok traversal ∧
        Row.zipTraverse (fun a b ↦ tryG.call pairArguments (a, b)) left right = .ok direct ∧
        Synchronous
          (fun limit ↦ drive (Suspended.poll (tryG.defer pairArguments delays) Deferred.poll) limit
            traversal)
          direct (pollBound ((List.range' start.world.calls left.length).map delays)) start) ∧
      Synchronous
        (fun limit ↦ drive (Suspended.poll (F := Id) pure Deferred.poll) limit futures.suspend)
        (pure (futures.map Deferred.value)) (pollBound (futures.toList.map Deferred.delay)) start ∧
      Synchronous
        (fun limit ↦ drive (Suspended.poll pure Deferred.poll) limit tryFutures.suspend)
        (pure (tryFutures.map Deferred.value).sequence)
        (pollBound (tryFutures.toList.map Deferred.delay)) start := by
  have hpairs : (left.toList.zip right.toList).length = left.length := by
    rw [List.length_zip, Row.length_toList, Row.length_toList, hlength, Nat.min_self]
  have hmap := Callback.synchronous (F := Id) f arguments delays row.toList start
  have htryMap := tryF.synchronous arguments delays row.toList start
  have hzip := Callback.synchronous (F := Id) g pairArguments delays (left.toList.zip right.toList) start
  have htryZip := tryG.synchronous pairArguments delays (left.toList.zip right.toList) start
  have hsequence := Deferred.synchronous (F := Id) futures.toList start
  have htrySequence := Deferred.synchronous tryFutures.toList start
  rw [Row.length_toList] at hmap htryMap
  rw [hpairs] at hzip htryZip
  rw [Row.traverse_id] at hmap hzip hsequence
  rw [Row.mapM_pure] at hsequence
  rw [Row.traverse_pure] at htrySequence
  refine ⟨hmap, htryMap, ?_, ?_, hsequence, htrySequence⟩
  · exact ⟨_, _, Row.suspendZip_eq .suspended hlength, Row.zipWithM_eq _ hlength, hzip⟩
  · exact ⟨_, _, Row.suspendZip_eq .effectfulSuspended hlength, Row.zipTraverse_eq _ hlength, htryZip⟩

/-- A difference that raises below zero. -/
def natDifference : Callback Nat (Nat × Nat) Nat := fun operands calls ↦
  (if operands.1 < operands.2 then .error "below zero" else .ok (operands.1 - operands.2), calls + 1)

/-- A difference that is held back at zero and raises below. -/
def positiveDifference : Callback Nat (Nat × Nat) (Option Nat) := fun operands calls ↦
  ((natDifference operands calls).1.map fun n ↦ if n = 0 then none else some n, calls + 1)

/-- The futures wait for one, two and three vain polls, so seven polls are enough. The third of the
plain differences raises; the second of the positive ones is held back, and no third is called. -/
theorem suspended_agree_within_seven_polls :
    (Row.ofList [8, 6, 4]).length = (Row.ofList [2, 6, 5]).length ∧
      (∃ traversal,
        Row.suspendZip .suspended (.ofList [8, 6, 4]) (.ofList [2, 6, 5]) = .ok traversal ∧
        unpolled (drive (Suspended.poll (F := Id)
            (natDifference.defer (fun operands ↦ [operands.1, operands.2]) (· + 1))
            Deferred.poll) 7 traversal (.start ⟨0, 0⟩)) =
          .error (.raised "below zero")
            ⟨#[], #[.call 0 [8, 2], .call 1 [6, 6], .call 2 [4, 5]], ⟨3, 3⟩⟩) ∧
      ∃ traversal,
        Row.suspendZip .effectfulSuspended (.ofList [8, 6, 4]) (.ofList [2, 6, 5]) =
          .ok traversal ∧
        ∃ polls ≤ 7, unpolled (drive (Suspended.poll
            (positiveDifference.defer (fun operands ↦ [operands.1, operands.2]) (· + 1))
            Deferred.poll) 7 traversal (.start ⟨0, 0⟩)) =
          .ok (polls, some none) ⟨#[], #[.call 0 [8, 2], .call 1 [6, 6]], ⟨2, 2⟩⟩ := by
  have hlength : (Row.ofList [8, 6, 4]).length = (Row.ofList [2, 6, 5]).length := rfl
  obtain ⟨-, -, ⟨traversal, direct, htraversal, hdirect, hagree⟩,
    ⟨tryTraversal, tryDirect, htryTraversal, htryDirect, htryAgree⟩, -⟩ :=
    suspended_agree (fun n ↦ natDifference (n, 1)) (fun n ↦ positiveDifference (n, 1)) (fun n ↦ [n])
      .empty natDifference positiveDifference (fun operands ↦ [operands.1, operands.2]) hlength
      .empty .empty (· + 1) (.start ⟨0, 0⟩)
  cases hdirect
  cases htryDirect
  refine ⟨hlength, ⟨traversal, htraversal, ?_⟩, tryTraversal, htryTraversal, ?_⟩
  · rcases hagree 7 with ⟨hless, -⟩ | ⟨polls, -, hresult⟩
    · exact absurd hless (by decide)
    · exact hresult
  · rcases htryAgree 7 with ⟨hless, -⟩ | ⟨polls, hpolls, hresult⟩
    · exact absurd hless (by decide)
    · exact ⟨polls, hpolls, hresult⟩

end PositionalRecord
