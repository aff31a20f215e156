/-
Patterns with a star.

A pattern is a list of tokens: one that takes a single character it accepts, and the star, which
takes any text. `Matches` says which texts a pattern takes as a whole, without saying how that is
found out.

* `matches_one` — a token takes the character in front.
* `matches_star` — a star leaves an end of the text to the rest of the pattern.
-/

import Mathlib.Data.List.Infix

namespace Wildcards

variable {α : Type*}

inductive Token (α : Type*) where
  | one (accepts : α → Bool)
  | star

/-- The pattern takes all of the text. -/
def Matches : List (Token α) → List α → Prop
  | [], s => s = []
  | .one _ :: _, [] => False
  | .one f :: p, c :: s => f c = true ∧ Matches p s
  | .star :: p, s => ∃ t, t <:+ s ∧ Matches p t

variable {p : List (Token α)} {f : α → Bool} {s t u : List α} {c : α}

theorem matches_nil : Matches ([] : List (Token α)) s ↔ s = [] := Iff.rfl

theorem matches_one : Matches (.one f :: p) s ↔ ∃ c t, s = c :: t ∧ f c = true ∧ Matches p t := by
  cases s with
  | nil => simp [Matches]
  | cons c s => simp [Matches]

theorem matches_star : Matches (.star :: p) s ↔ ∃ t, t <:+ s ∧ Matches p t := Iff.rfl

end Wildcards
