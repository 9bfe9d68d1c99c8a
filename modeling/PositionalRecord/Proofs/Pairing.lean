import PositionalRecord.Proofs.Synchrony

/-!
# Pairing rows

Two rows are paired field by field. The lengths are compared when the pairing is asked for, and
rows of different lengths are refused, whatever would have been run: nothing has been called, and
the journal is as it was. Rows of one length are treated as the row of their pairs, so that
whatever holds of calling on one row, or of polling a traversal of it, holds of two. No pair is
lost on the way: an answer is as long as both rows.
-/

namespace PositionalRecord

variable {ν σ α β γ δ ρ : Type} {F : Type → Type} [Effect F ρ]

/-! ## What a run gives -/

/-- Whenever the run answers, its answer is one of these. -/
def Run.Gives (run : Run ν σ α) (p : α → Prop) : Prop :=
  ∀ start answer finish, run start = .ok answer finish → p answer

namespace Run.Gives

theorem pure {p : α → Prop} {answer : α} (h : p answer) :
    Run.Gives (Pure.pure answer : Run ν σ α) p := by
  intro start found finish hrun
  cases hrun
  exact h

/-- What comes later is known from what any answer so far leads to. -/
theorem bind {p : α → Prop} {q : β → Prop} {run : Run ν σ α} {next : α → Run ν σ β}
    (h : run.Gives p) (hnext : ∀ answer, p answer → (next answer).Gives q) :
    (run >>= next).Gives q := by
  intro start found finish hrun
  cases hfirst : run start with
  | error fault stop =>
    rw [Run.bind_error hfirst] at hrun
    cases hrun
  | ok answer middle =>
    rw [Run.bind_ok hfirst] at hrun
    exact hnext answer (h start answer middle hfirst) middle found finish hrun

theorem anything (run : Run ν σ α) : run.Gives fun _ ↦ True :=
  fun _ _ _ _ ↦ trivial

theorem mono {p q : α → Prop} {run : Run ν σ α} (h : run.Gives p)
    (himp : ∀ answer, p answer → q answer) : run.Gives q :=
  fun start answer finish hrun ↦ himp answer (h start answer finish hrun)

theorem map {p : α → Prop} {q : β → Prop} {run : Run ν σ α} {f : α → β} (h : run.Gives p)
    (hf : ∀ answer, p answer → q (f answer)) : (f <$> run).Gives q := by
  rw [map_eq_pure_bind]
  exact h.bind fun answer hanswer ↦ .pure (hf answer hanswer)

end Run.Gives

/-- If the effect holds an output, it is a row of this length. -/
def OfLength (n : Nat) (effect : F (Row β)) : Prop :=
  ∀ row, Effect.branch effect = .ok row → row.length = n

theorem ofLength_ofResidual [LawfulEffect F] (n : Nat) (held : ρ) :
    OfLength n (Effect.ofResidual held : F (Row β)) := by
  intro row hrow
  rw [LawfulEffect.branch_ofResidual] at hrow
  cases hrow

theorem ofLength_ofOutput [LawfulEffect F] (row : Row β) :
    OfLength row.length (Effect.ofOutput row : F (Row β)) := by
  intro found hfound
  rw [LawfulEffect.branch_ofOutput] at hfound
  cases hfound
  rfl

/-! ## One row -/

theorem collect_gives_length (f : α → Run ν σ (F β)) (items : List α) :
    (collect f items).Gives fun outcome ↦ ∀ outputs, outcome = .ok outputs →
      outputs.length = items.length := by
  induction items with
  | nil =>
    refine .pure fun outputs h ↦ ?_
    cases h
    rfl
  | cons item rest ih =>
    rw [collect_cons]
    refine (Run.Gives.anything (f item)).bind fun effect _ ↦ ?_
    cases Effect.branch effect with
    | error held => exact .pure nofun
    | ok output =>
      refine ih.map fun outcome hlength outputs h ↦ ?_
      cases outcome with
      | error held => cases h
      | ok later =>
        cases h
        rw [List.length_cons, hlength later rfl, List.length_cons]

theorem Row.traverse_gives_length [LawfulEffect F] (f : α → Run ν σ (F β)) (row : Row α) :
    (row.traverse f).Gives (OfLength row.length) := by
  rw [traverse_eq_collect]
  refine (collect_gives_length f row.toList).map fun outcome hlength ↦ ?_
  cases outcome with
  | error held => exact ofLength_ofResidual row.length held
  | ok outputs =>
    rw [← length_toList row, ← hlength outputs rfl]
    exact ofLength_ofOutput (.ofList outputs)

theorem Row.mapM_gives_length (f : α → Run ν σ β) (row : Row α) :
    (row.mapM f).Gives fun last ↦ last.length = row.length := by
  rw [← traverse_id]
  exact fun start answer finish hrun ↦
    traverse_gives_length (F := Id) f row start answer finish hrun answer rfl

/-! ## A suspended traversal -/

namespace Suspended

variable {φ : Type}

/-- The number of fields that a traversal comes to: those it has, the one it waits for, and those
whose futures have not been made. -/
def size (traversal : Suspended α φ β) : Nat :=
  traversal.outputs.size + traversal.current.toList.length + traversal.waiting.length

/-- A poll leaves a traversal that comes to this number of fields, or has come to it. -/
def Comes (n : Nat) : Poll (Suspended α φ β) (F (Row β)) → Prop
  | .pending next => next.size = n
  | .ready effect => OfLength n effect

variable [LawfulEffect F] (make : α → Run ν σ φ) (pollItem : φ → Run ν σ (Poll φ (F β)))

/-- To wait for a future is to come to one field more than the fields before it and after it. -/
theorem proceed_comes {waiting : List α}
    (hwaiting : ∀ outputs : Array β,
      (poll make pollItem ⟨outputs, none, waiting⟩).Gives (Comes (outputs.size + waiting.length)))
    (outputs : Array β) (future : φ) :
    (proceed make pollItem outputs future waiting).Gives
      (Comes (outputs.size + 1 + waiting.length)) := by
  unfold proceed
  refine (Run.Gives.anything (pollItem future)).bind fun polled _ ↦ ?_
  cases polled with
  | pending rest => exact .pure rfl
  | ready effect =>
    dsimp only
    cases Effect.branch effect with
    | error held => exact .pure (ofLength_ofResidual _ held)
    | ok output =>
      have hpushed := hwaiting (outputs.push output)
      rw [Array.size_push] at hpushed
      cases waiting <;> exact hpushed

theorem poll_waiting_comes (waiting : List α) (outputs : Array β) :
    (poll make pollItem ⟨outputs, none, waiting⟩).Gives
      (Comes (outputs.size + waiting.length)) := by
  -- An item that the poll gets through is one more output and one waiting item less.
  induction waiting generalizing outputs with
  | nil => exact .pure (ofLength_ofOutput ⟨outputs⟩)
  | cons item rest ih =>
    refine (Run.Gives.anything (make item)).bind fun future _ ↦ ?_
    rw [List.length_cons, Nat.add_comm rest.length, ← Nat.add_assoc]
    exact proceed_comes make pollItem ih outputs future

/-- One poll loses no field. -/
theorem poll_comes (traversal : Suspended α φ β) :
    (poll make pollItem traversal).Gives (Comes traversal.size) := by
  obtain ⟨outputs, current, waiting⟩ := traversal
  have hwaiting := poll_waiting_comes make pollItem waiting
  cases current with
  | none => exact hwaiting outputs
  | some future => exact proceed_comes make pollItem hwaiting outputs future

/-- However often it is polled, a traversal loses no field. -/
theorem drive_gives_length (limit : Nat) (traversal : Suspended α φ β) :
    (drive (poll make pollItem) limit traversal).Gives fun driven ↦
      ∀ effect ∈ driven.2, OfLength traversal.size effect := by
  induction limit generalizing traversal with
  | zero => exact .pure nofun
  | succ limit ih =>
    refine (poll_comes make pollItem traversal).bind fun polled hpolled ↦ ?_
    cases polled with
    | ready effect =>
      refine .pure fun found hfound ↦ ?_
      cases hfound
      exact hpolled
    | pending next =>
      have hsize : next.size = traversal.size := hpolled
      rw [← hsize]
      exact (ih next).bind fun driven hdriven ↦ .pure hdriven

end Suspended

/-! ## The row of pairs -/

namespace Row

/-- The fields of two rows side by side. -/
def pairs (left : Row α) (right : Row β) : Row (α × β) :=
  .ofList (left.toList.zip right.toList)

theorem getElem?_pairs_eq_some_iff {left : Row α} {right : Row β} {k : Nat} {pair : α × β} :
    (left.pairs right).toList[k]? = some pair ↔
      left.toList[k]? = some pair.1 ∧ right.toList[k]? = some pair.2 :=
  List.getElem?_zip_eq_some

theorem length_pairs {left : Row α} {right : Row β} (h : left.length = right.length) :
    (left.pairs right).length = left.length := by
  calc
    (left.pairs right).length
    _ = (left.toList.zip right.toList).length := (length_toList _).symm
    _ = min left.length right.length := by
      rw [List.length_zip, length_toList, length_toList]
    _ = left.length := by rw [h, Nat.min_self]

theorem size_suspend {φ : Type} (row : Row α) :
    (row.suspend : Suspended α φ β).size = row.length := by
  calc
    (row.suspend : Suspended α φ β).size
    _ = 0 + row.toList.length := rfl
    _ = row.length := by rw [Nat.zero_add, length_toList]

end Row

/-! ## Checked pairings -/

/-- How a pairing treats two rows, whatever is done with it next. If they differ in length, it is
refused and nothing is run; the text of the fault names both lengths. If they do not, it is what
`overPairs` is. -/
structure ChecksShape (pairing : Pairing) (left : Row α) (right : Row β)
    (paired : Except Violation δ) (overPairs : δ) : Prop where
  refused_iff (broken : Violation) :
    paired = .error broken ↔
      left.length ≠ right.length ∧ broken = .shapeMismatch pairing left.length right.length
  eq_overPairs (hlength : left.length = right.length) : paired = .ok overPairs
  stops {ν σ γ : Type} (next : δ → Run ν σ γ) (hlength : left.length ≠ right.length)
      (start : Journal ν σ) :
    ∃ fault, (Run.ofExcept paired >>= next) start = .error fault start ∧
      fault.message =
        "contract violation: " ++ pairing.label ++ ": records of length " ++
          toString left.length ++ " and " ++ toString right.length ++
            " do not have the same shape"
  goes_on {ν σ γ : Type} (next : δ → Run ν σ γ) (hlength : left.length = right.length) :
    Run.ofExcept paired >>= next = next overPairs

/-- To check the shape first is all that it takes. -/
theorem ChecksShape.of_check (pairing : Pairing) (left : Row α) (right : Row β)
    (overPairs : δ) :
    ChecksShape pairing left right
      (do
        Violation.checkShape pairing left.length right.length
        return overPairs)
      overPairs := by
  by_cases hlength : left.length = right.length
  · rw [Violation.checkShape_of_eq pairing hlength]
    constructor
    case refused_iff => exact fun broken ↦ iff_of_false nofun fun h ↦ h.1 hlength
    case eq_overPairs => exact fun _ ↦ rfl
    case stops => exact fun _ hne ↦ absurd hlength hne
    case goes_on => exact fun next _ ↦ pure_bind overPairs next
  · rw [Violation.checkShape_of_ne pairing hlength]
    constructor
    case refused_iff =>
      intro broken
      rw [and_iff_right hlength]
      constructor
      · rintro ⟨⟩
        rfl
      · rintro rfl
        rfl
    case eq_overPairs => exact fun heq ↦ absurd heq hlength
    case stops => exact fun _ _ _ ↦ ⟨_, rfl, rfl⟩
    case goes_on => exact fun _ heq ↦ absurd heq hlength

/-- What is known of all answers over the pairs is known of all answers of the pairing. -/
theorem ChecksShape.gives {pairing : Pairing} {left : Row α} {right : Row β}
    {paired : Except Violation δ} {overPairs : δ}
    (h : ChecksShape pairing left right paired overPairs) {next : δ → Run ν σ γ} {p : γ → Prop}
    (hnext : left.length = right.length → (next overPairs).Gives p) :
    (Run.ofExcept paired >>= next).Gives p := by
  by_cases hlength : left.length = right.length
  · rw [h.goes_on next hlength]
    exact hnext hlength
  · intro start answer finish hrun
    obtain ⟨fault, hstop, -⟩ := h.stops next hlength start
    rw [hstop] at hrun
    cases hrun

namespace Row

section Checked

variable {m : Type → Type} [Monad m]

theorem zipWithM_checksShape [LawfulMonad m] (f : α → β → m γ) (left : Row α) (right : Row β) :
    ChecksShape .plain left right (Row.zipWithM f left right)
      ((left.pairs right).mapM fun pair ↦ f pair.1 pair.2) := by
  rw [Row.zipWithM, zipWithM_eq_mapM_zip]
  exact .of_check .plain left right _

theorem zipTraverse_checksShape (f : α → β → m (F γ)) (left : Row α) (right : Row β) :
    ChecksShape .effectful left right (Row.zipTraverse f left right)
      ((left.pairs right).traverse fun pair ↦ f pair.1 pair.2) :=
  .of_check .effectful left right _

theorem suspendZip_checksShape {φ : Type} (pairing : Pairing) (left : Row α) (right : Row β) :
    ChecksShape pairing left right
      (Row.suspendZip pairing left right : Except Violation (Suspended (α × β) φ γ))
      (left.pairs right).suspend :=
  .of_check pairing left right _

theorem ap_checksShape [LawfulMonad m] (functions : Row (β → m γ)) (arguments : Row β) :
    ChecksShape .plain functions arguments (Row.ap functions arguments)
      ((functions.pairs arguments).mapM fun slot ↦ slot.1 slot.2) := by
  unfold Row.ap
  exact zipWithM_checksShape _ functions arguments

end Checked

/-! ## Both lengths -/

theorem zipWithM_gives_length (f : α → β → Run ν σ γ) (left : Row α) (right : Row β) :
    (Run.ofExcept (Row.zipWithM f left right) >>= id).Gives fun last ↦
      last.length = left.length ∧ last.length = right.length := by
  refine (zipWithM_checksShape f left right).gives fun hlength ↦ ?_
  refine (mapM_gives_length _ _).mono fun last hlast ↦ ?_
  rw [length_pairs hlength] at hlast
  exact ⟨hlast, hlast.trans hlength⟩

theorem zipTraverse_gives_length [LawfulEffect F] (f : α → β → Run ν σ (F γ)) (left : Row α)
    (right : Row β) :
    (Run.ofExcept (Row.zipTraverse f left right) >>= id).Gives fun effect ↦
      OfLength left.length effect ∧ OfLength right.length effect := by
  refine (zipTraverse_checksShape f left right).gives fun hlength ↦ ?_
  refine (traverse_gives_length _ _).mono fun effect heffect ↦ ?_
  rw [length_pairs hlength] at heffect
  exact ⟨heffect, hlength ▸ heffect⟩

theorem ap_gives_length (functions : Row (β → Run ν σ γ)) (arguments : Row β) :
    (Run.ofExcept (Row.ap functions arguments) >>= id).Gives fun last ↦
      last.length = functions.length ∧ last.length = arguments.length := by
  unfold Row.ap
  exact zipWithM_gives_length _ functions arguments

theorem suspendZip_gives_length [LawfulEffect F] {φ : Type} (pairing : Pairing) (left : Row α)
    (right : Row β) (make : α × β → Run ν σ φ) (pollItem : φ → Run ν σ (Poll φ (F γ)))
    (limit : Nat) :
    (Run.ofExcept (Row.suspendZip pairing left right) >>=
        drive (Suspended.poll make pollItem) limit).Gives fun driven ↦
      ∀ effect ∈ driven.2, OfLength left.length effect ∧ OfLength right.length effect := by
  refine (suspendZip_checksShape pairing left right).gives fun hlength ↦ ?_
  refine (Suspended.drive_gives_length make pollItem limit _).mono fun driven hdriven ↦ ?_
  rw [size_suspend, length_pairs hlength] at hdriven
  exact fun effect heffect ↦ ⟨hdriven effect heffect, hlength ▸ hdriven effect heffect⟩

end Row

/-! ## All pairings -/

/-- How the pairings of two rows treat them: each compares the lengths first, and is then what the
row of pairs gives, with an answer as long as both rows. -/
structure Row.PairedByFields (left : Row α) (right : Row β) : Prop where
  zipWithM {m : Type → Type} [Monad m] [LawfulMonad m] {γ : Type} (f : α → β → m γ) :
    ChecksShape .plain left right (Row.zipWithM f left right)
      ((left.pairs right).mapM fun pair ↦ f pair.1 pair.2)
  zipTraverse {m : Type → Type} [Monad m] {F : Type → Type} {γ ρ : Type} [Effect F ρ]
      (f : α → β → m (F γ)) :
    ChecksShape .effectful left right (Row.zipTraverse f left right)
      ((left.pairs right).traverse fun pair ↦ f pair.1 pair.2)
  suspendZip {φ γ : Type} (pairing : Pairing) :
    ChecksShape pairing left right
      (Row.suspendZip pairing left right : Except Violation (Suspended (α × β) φ γ))
      (left.pairs right).suspend
  ap {m : Type → Type} [Monad m] [LawfulMonad m] {γ : Type} (functions : Row (β → m γ)) :
    ChecksShape .plain functions right (Row.ap functions right)
      ((functions.pairs right).mapM fun slot ↦ slot.1 slot.2)
  getElem?_pairs (k : Nat) (a : α) (b : β) :
    (left.pairs right).toList[k]? = some (a, b) ↔
      left.toList[k]? = some a ∧ right.toList[k]? = some b
  length_zipWithM {ν σ γ : Type} (f : α → β → Run ν σ γ) :
    (Run.ofExcept (Row.zipWithM f left right) >>= id).Gives fun last ↦
      last.length = left.length ∧ last.length = right.length
  length_zipTraverse {ν σ γ ρ : Type} {F : Type → Type} [Effect F ρ] [LawfulEffect F]
      (f : α → β → Run ν σ (F γ)) :
    (Run.ofExcept (Row.zipTraverse f left right) >>= id).Gives fun effect ↦
      OfLength left.length effect ∧ OfLength right.length effect
  length_ap {ν σ γ : Type} (functions : Row (β → Run ν σ γ)) :
    (Run.ofExcept (Row.ap functions right) >>= id).Gives fun last ↦
      last.length = functions.length ∧ last.length = right.length
  length_suspendZip {ν σ φ γ ρ : Type} {F : Type → Type} [Effect F ρ] [LawfulEffect F]
      (pairing : Pairing) (make : α × β → Run ν σ φ) (pollItem : φ → Run ν σ (Poll φ (F γ)))
      (limit : Nat) :
    (Run.ofExcept (Row.suspendZip pairing left right) >>=
        drive (Suspended.poll make pollItem) limit).Gives fun driven ↦
      ∀ effect ∈ driven.2, OfLength left.length effect ∧ OfLength right.length effect

theorem Row.paired_by_fields (left : Row α) (right : Row β) : left.PairedByFields right where
  zipWithM f := zipWithM_checksShape f left right
  zipTraverse f := zipTraverse_checksShape f left right
  suspendZip pairing := suspendZip_checksShape pairing left right
  ap functions := ap_checksShape functions right
  getElem?_pairs _ _ _ := getElem?_pairs_eq_some_iff
  length_zipWithM f := zipWithM_gives_length f left right
  length_zipTraverse f := zipTraverse_gives_length f left right
  length_ap functions := ap_gives_length functions right
  length_suspendZip pairing := suspendZip_gives_length pairing left right

/-- Two fields are not paired with three, be it in a traversal that would never be polled. Three
are, and there the second call holds a residual. -/
theorem paired_by_fields_two_and_three :
    (∃ fault,
      (Run.ofExcept (Row.zipTraverse countedQuotient (.ofList [8, 6]) (.ofList [2, 0, 1])) >>= id)
          (.start 0) = .error fault (.start 0) ∧
        fault.message = "contract violation: try_zip_with: records of length 2 and 3 " ++
          "do not have the same shape") ∧
      (∃ fault,
        (Run.ofExcept (Row.suspendZip .suspended (.ofList [8, 6]) (.ofList [2, 0, 1])) >>=
            drive (Suspended.poll (F := Id)
              (natDifference.defer (fun operands ↦ [operands.1, operands.2]) (· + 1))
              Deferred.poll) 0) (.start ⟨0, 0⟩) = .error fault (.start ⟨0, 0⟩) ∧
          fault.message = "contract violation: zip_with_async: records of length 2 and 3 " ++
            "do not have the same shape") ∧
      (Run.ofExcept (Row.zipTraverse countedQuotient (.ofList [8, 6, 4]) (.ofList [2, 0, 1])) >>=
          id) (.start 0) =
        .ok (.error 6) ⟨#[], #[.call 0 [8, 2], .call 1 [6, 0]], 2⟩ ∧
      (Run.ofExcept (Row.ap (.ofList [countedQuotient 8, countedQuotient 6]) (.ofList [2, 0])) >>=
          id) (.start 0) =
        .ok (.ofList [.ok 4, .error 6]) ⟨#[], #[.call 0 [8, 2], .call 1 [6, 0]], 2⟩ := by
  have hapart := Row.paired_by_fields (.ofList [8, 6]) (.ofList [2, 0, 1])
  have halike := Row.paired_by_fields (.ofList [8, 6, 4]) (.ofList [2, 0, 1])
  have happly := Row.paired_by_fields (.empty : Row Nat) (.ofList [2, 0])
  refine ⟨?_, ?_, ?_, ?_⟩
  · exact (hapart.zipTraverse countedQuotient).stops id (by decide) _
  · exact (hapart.suspendZip .suspended).stops _ (by decide) _
  · rw [(halike.zipTraverse countedQuotient).goes_on id rfl]
    rfl
  · rw [(happly.ap (.ofList [countedQuotient 8, countedQuotient 6])).goes_on id rfl]
    rfl

end PositionalRecord
