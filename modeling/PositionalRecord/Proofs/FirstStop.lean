import PositionalRecord.Row.Traverse
import PositionalRecord.Proofs.Runs

/-!
# First stops

An effectful traversal calls its function on one field after the other, and stops at the first call
that gives a residual or faults. What it does is said through the calls alone: how each of them
would end if all were made, and what journal the first few of them leave. One step goes on from an
output and stops at anything else; the traversal follows by induction on the fields. The function
may do whatever a run may do, so its answers may depend on every call before.
-/

namespace PositionalRecord

variable {ν σ α β γ ρ : Type} {F : Type → Type} [Effect F ρ]

/-! ## Calls -/

/-- The journal that a run leaves behind, whether it answers or faults. -/
def Run.leave (run : Run ν σ α) (start : Journal ν σ) : Journal ν σ :=
  match run start with
  | .ok _ finish => finish
  | .error _ stop => stop

theorem Run.leave_of_ok {run : Run ν σ α} {start finish : Journal ν σ} {answer : α}
    (h : run start = .ok answer finish) : run.leave start = finish := by
  rw [leave, h]

theorem Run.leave_of_error {run : Run ν σ α} {start stop : Journal ν σ} {fault : Fault}
    (h : run start = .error fault stop) : run.leave start = stop := by
  rw [leave, h]

theorem Run.leave_map (run : Run ν σ α) (f : α → β) (start : Journal ν σ) :
    (f <$> run).leave start = run.leave start := by
  cases hrun : run start with
  | ok answer finish => rw [leave_of_ok hrun, leave_of_ok (map_ok hrun f)]
  | error fault stop => rw [leave_of_error hrun, leave_of_error (map_error hrun f)]

/-- The journal after `f` was called on each of the items, in order and once, whatever it answered
and whether or not it faulted. -/
def afterCalls (f : α → Run ν σ β) (items : List α) (start : Journal ν σ) : Journal ν σ :=
  items.foldl (fun journal item ↦ (f item).leave journal) start

theorem afterCalls_cons (f : α → Run ν σ β) (item : α) (rest : List α) (start : Journal ν σ) :
    afterCalls f (item :: rest) start = afterCalls f rest ((f item).leave start) := rfl

/-- Why a traversal goes no further: a residual, or a fault of the call. -/
inductive Stop (ρ : Type)
  | residual (held : ρ)
  | fault (raised : Fault)

/-- How a call ends: with an output, after which a traversal goes on, or with a stop. -/
def Run.ending (run : Run ν σ (F β)) (start : Journal ν σ) : Except (Stop ρ) β :=
  match run start with
  | .ok effect _ => (Effect.branch effect).mapError .residual
  | .error fault _ => .error (.fault fault)

/-- How the calls on the items would end if all of them were made, each from the journal that the
one before left. -/
def endings (f : α → Run ν σ (F β)) : List α → Journal ν σ → List (Except (Stop ρ) β)
  | [], _ => []
  | item :: rest, start => (f item).ending start :: endings f rest ((f item).leave start)

theorem length_endings (f : α → Run ν σ (F β)) (items : List α) (start : Journal ν σ) :
    (endings f items start).length = items.length := by
  induction items generalizing start with
  | nil => rfl
  | cons item rest ih => rw [endings, List.length_cons, ih, List.length_cons]

/-! ## First errors -/

section FirstError

variable {ε δ : Type}

/-- The first error of a list, with its position. -/
def firstError : List (Except ε β) → Option (Nat × ε)
  | [] => none
  | .error cause :: _ => some (0, cause)
  | .ok _ :: rest => (firstError rest).map fun found ↦ (found.1 + 1, found.2)

def outputs (attempts : List (Except ε β)) : List β := attempts.filterMap Except.toOption

/-- There is no first error exactly if all are outputs. -/
theorem firstError_eq_none_iff {attempts : List (Except ε β)} {fields : List β} :
    firstError attempts = none ∧ outputs attempts = fields ↔ attempts = fields.map .ok := by
  induction attempts generalizing fields with
  | nil => simp [firstError, outputs, eq_comm]
  | cons attempt rest ih =>
    cases attempt with
    | error cause => cases fields <;> simp [firstError]
    | ok output =>
      have houtputs : outputs (.ok output :: rest) = output :: outputs rest := rfl
      cases fields with
      | nil => simp [houtputs]
      | cons field fields =>
        rw [firstError, Option.map_eq_none_iff, houtputs, List.map_cons, List.cons.injEq,
          List.cons.injEq, Except.ok.injEq, ← ih]
        exact and_left_comm

/-- The first error is an error at its position, and all before it are outputs. -/
theorem firstError_eq_some_iff {attempts : List (Except ε β)} {k : Nat} {cause : ε} :
    firstError attempts = some (k, cause) ↔
      attempts[k]? = some (.error cause) ∧ ∀ j < k, ∃ output, attempts[j]? = some (.ok output) := by
  induction attempts generalizing k with
  | nil => simp [firstError]
  | cons attempt rest ih =>
    cases attempt with
    | error first =>
      cases k with
      | zero => simp [firstError]
      | succ k =>
        refine iff_of_false (by simp [firstError]) fun ⟨_, hbefore⟩ ↦ ?_
        obtain ⟨output, houtput⟩ := hbefore 0 (Nat.succ_pos k)
        cases houtput
    | ok output =>
      rw [firstError, Option.map_eq_some_iff]
      constructor
      · rintro ⟨⟨position, found⟩, hfound, heq⟩
        cases heq
        obtain ⟨hat, hbefore⟩ := ih.mp hfound
        refine ⟨hat, fun j hj ↦ ?_⟩
        cases j with
        | zero => exact ⟨output, rfl⟩
        | succ j => exact hbefore j (Nat.lt_of_succ_lt_succ hj)
      · rintro ⟨hat, hbefore⟩
        cases k with
        | zero => cases hat
        | succ k =>
          have hrest : firstError rest = some (k, cause) :=
            ih.mpr ⟨hat, fun j hj ↦ hbefore (j + 1) (Nat.succ_lt_succ hj)⟩
          exact ⟨(k, cause), hrest, rfl⟩

/-- Other causes do not change where the first error is. -/
theorem firstError_map_mapError (attempts : List (Except ε β)) (f : ε → δ) :
    firstError (attempts.map (·.mapError f)) =
      (firstError attempts).map fun found ↦ (found.1, f found.2) := by
  induction attempts with
  | nil => rfl
  | cons attempt rest ih =>
    cases attempt with
    | error cause => rfl
    | ok output =>
      have hhead : Except.mapError f (.ok output : Except ε β) = .ok output := rfl
      rw [List.map_cons, hhead, firstError, firstError, ih, Option.map_map, Option.map_map]
      rfl

theorem outputs_map_mapError (attempts : List (Except ε β)) (f : ε → δ) :
    outputs (attempts.map (·.mapError f)) = outputs attempts := by
  have hkeep : Except.toOption ∘ (·.mapError f) = (Except.toOption : Except ε β → Option β) := by
    funext attempt
    cases attempt <;> rfl
  rw [outputs, List.filterMap_map, hkeep]
  rfl

end FirstError

/-! ## One call -/

/-- The result of a run that comes to a stop with this journal and answers residuals like this. -/
def Stop.result {δ : Type} (answer : ρ → δ) :
    Stop ρ → Journal ν σ → EStateM.Result Fault (Journal ν σ) δ
  | .residual held, finish => .ok (answer held) finish
  | .fault raised, stop => .error raised stop

theorem Run.ending_of_ok {run : Run ν σ (F β)} {start finish : Journal ν σ} {effect : F β}
    (h : run start = .ok effect finish) :
    run.ending start = (Effect.branch effect).mapError .residual := by
  simp only [ending, h]

/-- A call that ends with an output answered an effect that holds it. -/
theorem Run.of_ending_ok {run : Run ν σ (F β)} {start : Journal ν σ} {output : β}
    (h : run.ending start = .ok output) :
    ∃ effect, run start = .ok effect (run.leave start) ∧ Effect.branch effect = .ok output := by
  cases hrun : run start with
  | error fault stop =>
    simp only [ending, hrun] at h
    cases h
  | ok effect finish =>
    simp only [ending, hrun] at h
    cases hbranch : Effect.branch effect with
    | error held =>
      rw [hbranch] at h
      cases h
    | ok found =>
      rw [hbranch] at h
      cases h
      exact ⟨effect, by rw [leave_of_ok hrun], hbranch⟩

/-- A call that ends with a stop answered a residual or faulted. -/
theorem Run.of_ending_error {run : Run ν σ (F β)} {start : Journal ν σ} {stop : Stop ρ}
    (h : run.ending start = .error stop) :
    (∃ effect held, run start = .ok effect (run.leave start) ∧
        Effect.branch effect = .error held ∧ stop = .residual held) ∨
      ∃ raised, run start = .error raised (run.leave start) ∧ stop = .fault raised := by
  cases hrun : run start with
  | error raised finish =>
    simp only [ending, hrun] at h
    cases h
    exact .inr ⟨raised, by rw [leave_of_error hrun], rfl⟩
  | ok effect finish =>
    simp only [ending, hrun] at h
    cases hbranch : Effect.branch effect with
    | ok output =>
      rw [hbranch] at h
      cases h
    | error held =>
      rw [hbranch] at h
      cases h
      exact .inl ⟨effect, held, by rw [leave_of_ok hrun], hbranch, rfl⟩

section OneCall

variable {f : α → Run ν σ (F β)} {item : α} {start : Journal ν σ}

/-- After an output the collection goes on from the journal that the call left. -/
theorem collect_cons_of_output {output : β} (h : (f item).ending start = .ok output)
    (rest : List α) :
    collect f (item :: rest) start =
      ((fun collected ↦ collected.map (output :: ·)) <$> collect f rest)
        ((f item).leave start) := by
  obtain ⟨effect, hrun, hbranch⟩ := Run.of_ending_ok h
  rw [collect_cons, Run.bind_ok hrun, hbranch]

/-- At a stop the collection is over, whatever items are left. -/
theorem collect_cons_of_stop {stop : Stop ρ} (h : (f item).ending start = .error stop)
    (rest : List α) :
    collect f (item :: rest) start = stop.result .error ((f item).leave start) := by
  rcases Run.of_ending_error h with ⟨effect, held, hrun, hbranch, rfl⟩ | ⟨raised, hrun, rfl⟩
  · rw [collect, Run.bind_ok hrun, hbranch]
    rfl
  · rw [collect, Run.bind_error hrun]
    rfl

end OneCall

/-! ## All calls -/

/-- Outputs are collected up to the first stop, and the calls made are those up to and including
the one that stops. -/
theorem collect_eq (f : α → Run ν σ (F β)) (items : List α) (start : Journal ν σ) :
    collect f items start =
      match firstError (endings f items start) with
      | none => .ok (.ok (outputs (endings f items start))) (afterCalls f items start)
      | some (k, stop) => stop.result .error (afterCalls f (items.take (k + 1)) start) := by
  induction items generalizing start with
  | nil => rfl
  | cons item rest ih =>
    cases hending : (f item).ending start with
    | error stop =>
      rw [collect_cons_of_stop hending, endings, hending]
      rfl
    | ok output =>
      have hrest := ih ((f item).leave start)
      rw [collect_cons_of_output hending, endings, hending, firstError]
      cases hfirst : firstError (endings f rest ((f item).leave start)) with
      | none =>
        rw [hfirst] at hrest
        exact Run.map_ok hrest _
      | some found =>
        obtain ⟨k, stop⟩ := found
        rw [hfirst] at hrest
        cases stop with
        | residual held => exact Run.map_ok hrest _
        | fault raised => exact Run.map_error hrest _

/-- A collection makes the first few of the calls, and nothing else. -/
theorem leave_collect (f : α → Run ν σ (F β)) (items : List α) (start : Journal ν σ) :
    ∃ count, (collect f items).leave start = afterCalls f (items.take count) start := by
  have hcollect := collect_eq f items start
  cases hfirst : firstError (endings f items start) with
  | none =>
    rw [hfirst] at hcollect
    refine ⟨items.length, ?_⟩
    rw [Run.leave_of_ok hcollect, List.take_length]
  | some found =>
    obtain ⟨k, stop⟩ := found
    rw [hfirst] at hcollect
    refine ⟨k + 1, ?_⟩
    cases stop with
    | residual held => exact Run.leave_of_ok hcollect
    | fault raised => exact Run.leave_of_error hcollect

/-- The effects of a list as one: all outputs, or the first residual. -/
theorem collect_pure_eq (effects : List (F β)) :
    Id.run (collect pure effects) =
      match firstError (effects.map Effect.branch) with
      | none => .ok (outputs (effects.map Effect.branch))
      | some (_, held) => .error held := by
  induction effects with
  | nil => rfl
  | cons effect rest ih =>
    rw [List.map_cons]
    cases hbranch : Effect.branch effect with
    | error held => simp only [collect, pure_bind, hbranch, firstError, Id.run_pure]
    | ok output =>
      simp only [collect, pure_bind, hbranch, firstError, Id.run_bind, ih]
      cases firstError (rest.map Effect.branch) <;> rfl

/-! ## Traversals -/

/-- What a traversal of the items gives. Either all calls are made and all end with outputs, which
are the answer in order; or the calls up to and including the first that stops are made, and its
residual is the answer or its fault is the traversal's own. -/
inductive Traversed (f : α → Run ν σ (F β)) (items : List α) (start : Journal ν σ) :
    EStateM.Result Fault (Journal ν σ) (F (Row β)) → Prop
  | complete {fields : List β} (hall : endings f items start = fields.map .ok) :
    Traversed f items start (.ok (Effect.ofOutput (.ofList fields)) (afterCalls f items start))
  | residual {k : Nat} {held : ρ} (hat : (endings f items start)[k]? = some (.error (.residual held)))
      (hbefore : ∀ j < k, ∃ output, (endings f items start)[j]? = some (.ok output)) :
    Traversed f items start
      (.ok (Effect.ofResidual held) (afterCalls f (items.take (k + 1)) start))
  | fault {k : Nat} {raised : Fault} (hat : (endings f items start)[k]? = some (.error (.fault raised)))
      (hbefore : ∀ j < k, ∃ output, (endings f items start)[j]? = some (.ok output)) :
    Traversed f items start (.error raised (afterCalls f (items.take (k + 1)) start))

/-- What the effects of a list give as one: all outputs in order, or the first residual. -/
inductive Sequenced (effects : List (F β)) : F (Row β) → Prop
  | complete {fields : List β} (hall : effects.map Effect.branch = fields.map .ok) :
    Sequenced effects (Effect.ofOutput (.ofList fields))
  | residual {k : Nat} {held : ρ} (hat : (effects.map Effect.branch)[k]? = some (.error held))
      (hbefore : ∀ j < k, ∃ output, (effects.map Effect.branch)[j]? = some (.ok output)) :
    Sequenced effects (Effect.ofResidual held)

/-- A traversal up to the first stop of its calls. -/
theorem Row.traverse_eq (f : α → Run ν σ (F β)) (row : Row α) (start : Journal ν σ) :
    row.traverse f start =
      match firstError (endings f row.toList start) with
      | none =>
        .ok (Effect.ofOutput (.ofList (outputs (endings f row.toList start))))
          (afterCalls f row.toList start)
      | some (k, stop) =>
        stop.result Effect.ofResidual (afterCalls f (row.toList.take (k + 1)) start) := by
  have hcollect := collect_eq f row.toList start
  rw [Row.traverse_eq_collect]
  cases hfirst : firstError (endings f row.toList start) with
  | none =>
    rw [hfirst] at hcollect
    exact Run.map_ok hcollect _
  | some found =>
    obtain ⟨k, stop⟩ := found
    rw [hfirst] at hcollect
    cases stop with
    | residual held => exact Run.map_ok hcollect _
    | fault raised => exact Run.map_error hcollect _

theorem Row.sequence_eq (row : Row (F β)) :
    row.sequence =
      match firstError (row.toList.map Effect.branch) with
      | none => Effect.ofOutput (.ofList (outputs (row.toList.map Effect.branch)))
      | some (_, held) => Effect.ofResidual held := by
  have hcollect := collect_pure_eq row.toList
  rw [Row.sequence, Row.traverse_eq_collect, Id.run_map, hcollect]
  cases firstError (row.toList.map Effect.branch) <;> rfl

/-- The first stop of the calls decides what a traversal gives, and nothing else does. -/
theorem Row.traversed_iff (f : α → Run ν σ (F β)) (row : Row α) (start : Journal ν σ)
    (result : EStateM.Result Fault (Journal ν σ) (F (Row β))) :
    Traversed f row.toList start result ↔ row.traverse f start = result := by
  have htraverse := row.traverse_eq f start
  constructor
  · rintro (hall | ⟨hat, hbefore⟩ | ⟨hat, hbefore⟩)
    · obtain ⟨hfirst, houtputs⟩ := firstError_eq_none_iff.mpr hall
      rw [hfirst, houtputs] at htraverse
      exact htraverse
    · rw [firstError_eq_some_iff.mpr ⟨hat, hbefore⟩] at htraverse
      exact htraverse
    · rw [firstError_eq_some_iff.mpr ⟨hat, hbefore⟩] at htraverse
      exact htraverse
  · rintro rfl
    rw [htraverse]
    cases hfirst : firstError (endings f row.toList start) with
    | none => exact .complete (firstError_eq_none_iff.mp ⟨hfirst, rfl⟩)
    | some found =>
      obtain ⟨k, stop⟩ := found
      obtain ⟨hat, hbefore⟩ := firstError_eq_some_iff.mp hfirst
      cases stop with
      | residual held => exact .residual hat hbefore
      | fault raised => exact .fault hat hbefore

theorem Row.sequenced_iff (row : Row (F β)) (result : F (Row β)) :
    Sequenced row.toList result ↔ row.sequence = result := by
  have hsequence := row.sequence_eq
  constructor
  · rintro (hall | ⟨hat, hbefore⟩)
    · obtain ⟨hfirst, houtputs⟩ := firstError_eq_none_iff.mpr hall
      rw [hfirst, houtputs] at hsequence
      exact hsequence
    · rw [firstError_eq_some_iff.mpr ⟨hat, hbefore⟩] at hsequence
      exact hsequence
  · rintro rfl
    rw [hsequence]
    cases hfirst : firstError (row.toList.map Effect.branch) with
    | none => exact .complete (firstError_eq_none_iff.mp ⟨hfirst, rfl⟩)
    | some found =>
      obtain ⟨hat, hbefore⟩ := firstError_eq_some_iff.mp hfirst
      exact .residual hat hbefore

theorem Violation.checkShape_of_eq (pairing : Pairing) {left right : Nat} (h : left = right) :
    checkShape pairing left right = .ok () := if_pos h

theorem Violation.checkShape_of_ne (pairing : Pairing) {left right : Nat} (h : left ≠ right) :
    checkShape pairing left right = .error (.shapeMismatch pairing left right) := if_neg h

/-- Rows of one length are traversed as the row of their pairs. -/
theorem Row.zipTraverse_eq (f : α → β → Run ν σ (F γ)) {left : Row α} {right : Row β}
    (h : left.length = right.length) :
    Row.zipTraverse f left right =
      .ok ((ofList (left.toList.zip right.toList)).traverse fun pair ↦ f pair.1 pair.2) := by
  rw [zipTraverse, Violation.checkShape_of_eq .effectful h]
  rfl

/-- Traversals stop at their first stop. Of one row, of two rows of one length, and of a row of
effects: the calls that are made are those up to and including the first that stops, or all of
them, and the answer is the first residual or all outputs. Without fields nothing is called. -/
theorem traversals_stop_first (f : α → Run ν σ (F γ)) (row : Row α) (g : α → β → Run ν σ (F γ))
    {left : Row α} {right : Row β} (hlength : left.length = right.length) (effects : Row (F γ))
    (start : Journal ν σ) :
    (∀ result, Traversed f row.toList start result ↔ row.traverse f start = result) ∧
      (∃ traversal, Row.zipTraverse g left right = .ok traversal ∧
        ∀ result, Traversed (fun pair ↦ g pair.1 pair.2) (left.toList.zip right.toList) start result ↔
          traversal start = result) ∧
      (∀ result, Sequenced effects.toList result ↔ effects.sequence = result) ∧
      Row.empty.traverse f start = .ok (Effect.ofOutput .empty) start := by
  refine ⟨row.traversed_iff f start, ?_, effects.sequenced_iff, ?_⟩
  · exact ⟨_, Row.zipTraverse_eq g hlength, Row.traversed_iff _ (.ofList _) start⟩
  · have hall : endings f Row.empty.toList start = ([] : List γ).map .ok := rfl
    exact (Row.traversed_iff f .empty start _).mp (.complete hall)

/-- A function that counts its calls in its world and shows them: a quotient, which holds the
dividend back if the divisor is zero and raises if the divisor is the larger number. -/
def countedQuotient (dividend divisor : Nat) : Run Nat Nat (Except Nat Nat) := do
  let k ← Run.onWorld fun calls ↦ (calls, calls + 1)
  Run.observe (.call k [dividend, divisor])
  if divisor = 0 then return .error dividend
  if dividend < divisor then Run.raise "less than one"
  return .ok (dividend / divisor)

/-- The second of three calls raises; the second of three pairs holds a residual, and so does the
second of three effects, although the third would as well. -/
theorem traversals_stop_second_of_three :
    (Row.ofList [8, 6, 4]).length = (Row.ofList [2, 0, 1]).length ∧
      (Row.ofList [3, 8, 0]).traverse (countedQuotient 6) (.start 0) =
        .error (.raised "less than one") ⟨#[], #[.call 0 [6, 3], .call 1 [6, 8]], 2⟩ ∧
      (∃ traversal, Row.zipTraverse countedQuotient (.ofList [8, 6, 4]) (.ofList [2, 0, 1]) =
          .ok traversal ∧
        traversal (.start 0) = .ok (.error 6) ⟨#[], #[.call 0 [8, 2], .call 1 [6, 0]], 2⟩) ∧
      (Row.ofList [some 5, none, none]).sequence = none := by
  have hlength : (Row.ofList [8, 6, 4]).length = (Row.ofList [2, 0, 1]).length := rfl
  have hfirst {ε : Type} {attempts : List (Except ε Nat)} {output : Nat}
      (h : attempts[0]? = some (.ok output)) : ∀ j < 1, ∃ output, attempts[j]? = some (.ok output) := by
    intro j hj
    obtain rfl : j = 0 := Nat.lt_one_iff.mp hj
    exact ⟨output, h⟩
  obtain ⟨hrow, ⟨traversal, hzip, hpairs⟩, -, -⟩ :=
    traversals_stop_first (countedQuotient 6) (.ofList [3, 8, 0]) countedQuotient hlength .empty
      (.start 0)
  obtain ⟨-, -, heffects, -⟩ :=
    traversals_stop_first (fun output : Nat ↦ pure (some output)) .empty
      (fun _ output : Nat ↦ pure (some output)) hlength (.ofList [some 5, none, none])
      (Journal.start 0 : Journal Nat Nat)
  refine ⟨hlength, ?_, ⟨traversal, hzip, ?_⟩, ?_⟩
  · exact (hrow _).mp (.fault (k := 1) rfl (hfirst rfl))
  · exact (hpairs _).mp (.residual (k := 1) rfl (hfirst rfl))
  · exact (heffects _).mp (.residual (k := 1) rfl (hfirst rfl))

end PositionalRecord
