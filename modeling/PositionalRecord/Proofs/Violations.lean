import PositionalRecord.Violation
import Mathlib.Data.List.Basic

/-!
# What the text of a violation says

A violation is reported as a text. The text loses nothing: it names the operation, the positions
and the lengths, and two violations with one text are one violation.
-/

namespace PositionalRecord

/-! ## Reading a text from its start -/

/-- Two texts with a front of one kind of characters, ended by a character of another kind, have
the same front and the same rest. -/
theorem front_eq_of_append_cons_eq {kind : Char → Bool} {left right rest others : List Char}
    {mark : Char} (hleft : ∀ letter ∈ left, kind letter = true)
    (hright : ∀ letter ∈ right, kind letter = true) (hmark : kind mark = false)
    (h : left ++ mark :: rest = right ++ mark :: others) : left = right ∧ rest = others := by
  have hfront (front back : List Char) (hkind : ∀ letter ∈ front, kind letter = true) :
      (front ++ mark :: back).takeWhile kind = front := by
    rw [List.takeWhile_append_of_pos hkind, List.takeWhile_cons_of_neg (by simp [hmark]),
      List.append_nil]
  have hsame : left = right := by
    calc
      left = (left ++ mark :: rest).takeWhile kind := (hfront left rest hleft).symm
      _ = (right ++ mark :: others).takeWhile kind := by rw [h]
      _ = right := hfront right others hright
  subst hsame
  have hback : mark :: rest = mark :: others := List.append_cancel_left h
  exact ⟨rfl, List.tail_eq_of_cons_eq hback⟩

/-- A number is read back from its digits. -/
theorem toDigits_injective : Function.Injective (Nat.toDigits 10) := by
  intro left right h
  calc
    left = Nat.ofDigitChars 10 (Nat.toDigits 10 left) 0 := Nat.ofDigitChars_ten_toDigits.symm
    _ = Nat.ofDigitChars 10 (Nat.toDigits 10 right) 0 := by rw [h]
    _ = right := Nat.ofDigitChars_ten_toDigits

/-- A number that is followed by a space is read back from the start of a text, and so is what
follows. -/
theorem number_eq_of_append_cons_eq {left right : Nat} {rest others : List Char}
    (h : Nat.toDigits 10 left ++ ' ' :: rest = Nat.toDigits 10 right ++ ' ' :: others) :
    left = right ∧ rest = others := by
  have hdigits (number : Nat) : ∀ letter ∈ Nat.toDigits 10 number, letter.isDigit = true :=
    fun _ hletter ↦ Nat.isDigit_of_mem_toDigits (by decide) (by decide) hletter
  obtain ⟨hnumber, hrest⟩ :=
    front_eq_of_append_cons_eq (hdigits left) (hdigits right) (by decide) h
  exact ⟨toDigits_injective hnumber, hrest⟩

/-! ## Names -/

/-- The name of an operation ends at the first colon. -/
theorem Access.letter_ne_colon (access : Access) :
    ∀ letter ∈ access.label.toList, (letter != ':') = true := by
  rw [← List.all_eq_true]
  cases access <;> decide

theorem Pairing.letter_ne_colon (pairing : Pairing) :
    ∀ letter ∈ pairing.label.toList, (letter != ':') = true := by
  rw [← List.all_eq_true]
  cases pairing <;> decide

theorem Access.label_injective : Function.Injective Access.label := by
  intro left right h
  revert h
  cases left <;> cases right <;> decide

theorem Pairing.label_injective : Function.Injective Pairing.label := by
  intro left right h
  revert h
  cases left <;> cases right <;> decide

/-! ## Texts -/

namespace Violation

/-- The text of a refused access, letter by letter. -/
theorem toList_message_outOfBounds (access : Access) (index length : Nat) :
    (outOfBounds access index length).message.toList =
      "contract violation: ".toList ++ (access.label.toList ++ ':' :: (" index ".toList ++
        (Nat.toDigits 10 index ++ ' ' :: ("out of bounds for record of length ".toList ++
          Nat.toDigits 10 length)))) := by
  have hcolon : ": index ".toList = ':' :: " index ".toList := by decide
  have hspace : " out of bounds for record of length ".toList =
      ' ' :: "out of bounds for record of length ".toList := by decide
  unfold message
  simp only [String.toList_append, Nat.toString_eq_repr, Nat.toList_repr, hcolon, hspace,
    List.append_assoc, List.cons_append]

/-- The text of a refused pairing, letter by letter. -/
theorem toList_message_shapeMismatch (pairing : Pairing) (left right : Nat) :
    (shapeMismatch pairing left right).message.toList =
      "contract violation: ".toList ++ (pairing.label.toList ++ ':' ::
        (" records of length ".toList ++ (Nat.toDigits 10 left ++ ' ' :: ("and ".toList ++
          (Nat.toDigits 10 right ++ ' ' :: "do not have the same shape".toList))))) := by
  have hcolon : ": records of length ".toList = ':' :: " records of length ".toList := by decide
  have hand : " and ".toList = ' ' :: "and ".toList := by decide
  have hshape : " do not have the same shape".toList =
      ' ' :: "do not have the same shape".toList := by decide
  unfold message
  simp only [String.toList_append, Nat.toString_eq_repr, Nat.toList_repr, hcolon, hand,
    hshape, List.append_assoc, List.cons_append]

/-- A refused access does not read like a refused pairing. -/
theorem message_outOfBounds_ne_shapeMismatch (access : Access) (index length : Nat)
    (pairing : Pairing) (left right : Nat) :
    (outOfBounds access index length).message ≠ (shapeMismatch pairing left right).message := by
  intro h
  have htext := congrArg String.toList h
  rw [toList_message_outOfBounds, toList_message_shapeMismatch] at htext
  obtain ⟨hlabel, -⟩ := front_eq_of_append_cons_eq access.letter_ne_colon
    pairing.letter_ne_colon (by decide) (List.append_cancel_left htext)
  have hname : access.label = pairing.label := String.toList_inj.mp hlabel
  revert hname
  cases access <;> cases pairing <;> decide

/-- The text of a violation names the operation and all its numbers: two violations with one text
are one violation. -/
theorem message_injective : Function.Injective message := by
  intro first second h
  have htext := congrArg String.toList h
  cases first with
  | outOfBounds access index length =>
    cases second with
    | outOfBounds other position bound =>
      rw [toList_message_outOfBounds, toList_message_outOfBounds] at htext
      obtain ⟨hlabel, hrest⟩ := front_eq_of_append_cons_eq access.letter_ne_colon
        other.letter_ne_colon (by decide) (List.append_cancel_left htext)
      obtain ⟨hindex, hrest⟩ := number_eq_of_append_cons_eq (List.append_cancel_left hrest)
      have hlength := toDigits_injective (List.append_cancel_left hrest)
      rw [Access.label_injective (String.toList_inj.mp hlabel), hindex, hlength]
    | shapeMismatch pairing left right =>
      exact absurd h (message_outOfBounds_ne_shapeMismatch access index length pairing left right)
  | shapeMismatch pairing left right =>
    cases second with
    | outOfBounds access index length =>
      exact absurd h.symm
        (message_outOfBounds_ne_shapeMismatch access index length pairing left right)
    | shapeMismatch other front back =>
      rw [toList_message_shapeMismatch, toList_message_shapeMismatch] at htext
      obtain ⟨hlabel, hrest⟩ := front_eq_of_append_cons_eq pairing.letter_ne_colon
        other.letter_ne_colon (by decide) (List.append_cancel_left htext)
      obtain ⟨hleft, hrest⟩ := number_eq_of_append_cons_eq (List.append_cancel_left hrest)
      obtain ⟨hright, -⟩ := number_eq_of_append_cons_eq (List.append_cancel_left hrest)
      rw [Pairing.label_injective (String.toList_inj.mp hlabel), hleft, hright]

end Violation

end PositionalRecord
