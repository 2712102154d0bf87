import ModPackager.Proofs.TypeScript.Module
import ModPackager.Proofs.TypeScript.Words

/-!
# What a reader gives

`Gives` says of a reader what holds of its result and of the place where it stops. There is one rule for each way in
which readers are put together, so what a production gives follows the production. Most productions ask for one
alternative after the other, and an alternative that is not there leaves the cursor where it is (`Answers`); that is
why the last of them still starts where the first one did.
-/

namespace ModPackager.TypeScript.Reader

variable {α β : Type} {reader : Reader α} {cursor : Cursor} {Q : α → Cursor → Prop}

/-- Whatever the reader gives from a cursor, and wherever it stops then, satisfies a condition. -/
def Gives (reader : Reader α) (cursor : Cursor) (Q : α → Cursor → Prop) : Prop :=
  ∀ result moved, reader.run cursor = .ok result moved → Q result moved

/-- An answer, and where the reader stops that gives it: the answer yes comes with a condition, and the answer no
without a step. -/
def Answers (cursor : Cursor) (yes : Cursor → Prop) : Bool → Cursor → Prop
  | true, moved => yes moved
  | false, moved => moved = cursor

namespace Gives

theorem pure {result : α} (h : Q result cursor) : (Pure.pure result : Reader α).Gives cursor Q := by
  intro _ _ hrun
  cases hrun
  exact h

theorem refuse : (Reader.refuse : Reader α).Gives cursor Q := by
  intro _ _ hrun
  cases hrun

theorem bind {next : α → Reader β} {Q : β → Cursor → Prop}
    (h : ∀ value between, reader.run cursor = .ok value between → (next value).Gives between Q) :
    (reader >>= next).Gives cursor Q := by
  intro result moved hrun
  obtain ⟨value, between, hreader, hnext⟩ := bind_eq_ok.1 hrun
  exact h value between hreader result moved hnext

theorem read {look : Cursor → Reader α} (h : (look cursor).Gives cursor Q) :
    (MonadReader.read >>= look).Gives cursor Q := h

/-- Asking for an alternative: what follows starts behind it, or else where the reader was. -/
theorem ask {reader : Reader Bool} {next : Bool → Reader α} {yes : Cursor → Prop}
    (hreader : reader.Gives cursor (Answers cursor yes)) (hyes : ∀ between, yes between → (next true).Gives between Q)
    (hno : (next false).Gives cursor Q) : (reader >>= next).Gives cursor Q := by
  refine .bind fun answer between hrun => ?_
  have hanswer := hreader answer between hrun
  cases answer with
  | true => exact hyes between hanswer
  | false =>
      obtain rfl : between = cursor := hanswer
      exact hno

theorem imp {Q' : α → Cursor → Prop} (h : reader.Gives cursor Q)
    (himp : ∀ result moved, Q result moved → Q' result moved) : reader.Gives cursor Q' := by
  intro result moved hrun
  exact himp result moved (h result moved hrun)

theorem within {change : Context → Context}
    (h : reader.Gives { cursor with context := change cursor.context } fun result ended =>
      Q result { ended with context := cursor.context }) : (Reader.within change reader).Gives cursor Q := by
  intro result moved hrun
  unfold Reader.within at hrun
  dsimp only at hrun
  split at hrun
  next hreader =>
      cases hrun
      exact h _ _ hreader
  · cases hrun

end Gives

theorem gives_advance : Reader.advance.Gives cursor fun _ moved => moved = cursor.advance := by
  intro _ _ hrun
  cases hrun
  rfl

theorem gives_eatWord {name : String} :
    (eatWord name).Gives cursor (Answers cursor fun moved => cursor.isWord name = true ∧ moved = cursor.advance) := by
  refine .read ?_
  dsimp only
  split
  next hword => exact .bind fun _ between hadvance => .pure ⟨hword, gives_advance _ between hadvance⟩
  · exact .pure rfl

theorem gives_eat {text : String} : (eat text).Gives cursor (Answers cursor fun _ => True) := by
  refine .read ?_
  dsimp only
  split
  · exact .bind fun _ _ _ => .pure trivial
  · exact .pure rfl

theorem gives_expectWord {name : String} :
    (expectWord name).Gives cursor fun _ moved => cursor.isWord name = true ∧ moved = cursor.advance := by
  refine .ask gives_eatWord (fun _ hmoved => ?_) ?_
  · rw [if_pos rfl]
    exact .pure hmoved
  · rw [if_neg Bool.false_ne_true]
    exact .refuse

/-- What an attempt that comes to nothing has passed is put back. -/
theorem gives_attempt {reader : Reader (Option α)} :
    (attempt reader).Gives cursor fun found moved => found = none → moved = cursor := by
  rintro found moved hrun rfl
  unfold attempt at hrun
  dsimp only at hrun
  split at hrun
  · cases hrun
  · cases hrun
    rfl
  · cases hrun
    rfl

end ModPackager.TypeScript.Reader
