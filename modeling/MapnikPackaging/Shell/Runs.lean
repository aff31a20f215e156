/-
Runs of a system that takes one labelled step after another.

A system is a function `step : σ → α → σ`; what the outside decides, such as whether a
transfer breaks off, is part of the label. `final` is where a list of steps leads, and
`Along ok` says that each step is taken from a state that meets the step's condition.

* `final_of_along` — what one step preserves under its condition, every run whose steps all
  meet the condition preserves.
* `final_of_step` — the same without a condition.
* `always_iff_along` — where the condition of a step is exactly that it preserves the
  property, the property holds in every state of a run exactly when every step meets its
  condition.
-/

import Mathlib.Data.List.Basic

namespace Runs

variable {σ α : Type*} {step : σ → α → σ} {ok : σ → α → Prop} {P : σ → Prop} {s : σ}
  {a : α} {as bs : List α}

/-- The state a list of steps leads to. -/
def final (step : σ → α → σ) (s : σ) (as : List α) : σ := as.foldl step s

@[simp] theorem final_nil : final step s [] = s := rfl

@[simp] theorem final_cons : final step s (a :: as) = final step (step s a) as := rfl

@[simp] theorem final_append : final step s (as ++ bs) = final step (final step s as) bs :=
  List.foldl_append

/-- Each step of the list is taken from a state that meets its condition. -/
def Along (step : σ → α → σ) (ok : σ → α → Prop) : σ → List α → Prop
  | _, [] => True
  | s, a :: as => ok s a ∧ Along step ok (step s a) as

@[simp] theorem along_nil : Along step ok s [] := trivial

@[simp] theorem along_cons :
    Along step ok s (a :: as) ↔ ok s a ∧ Along step ok (step s a) as := Iff.rfl

/-- The property holds in every state passed through, the first and the last included. -/
def Always (step : σ → α → σ) (P : σ → Prop) : σ → List α → Prop
  | s, [] => P s
  | s, a :: as => P s ∧ Always step P (step s a) as

/-- In other words, wherever the run is cut. -/
theorem always_iff : Always step P s as ↔ ∀ bs, bs <+: as → P (final step s bs) := by
  induction as generalizing s with
  | nil => simp [Always]
  | cons a as ih =>
    simp only [Always, ih]
    constructor
    · rintro ⟨now, later⟩ bs hbs
      rcases List.prefix_cons_iff.mp hbs with rfl | ⟨cs, rfl, hcs⟩
      · exact now
      · exact later cs hcs
    · intro h
      exact ⟨h [] (List.nil_prefix), fun bs hbs => h (a :: bs) (List.cons_prefix_cons.mpr ⟨rfl, hbs⟩)⟩

/-- **Run rule.** -/
theorem final_of_along (start : P s) (preserves : ∀ s a, P s → ok s a → P (step s a))
    (h : Along step ok s as) : P (final step s as) := by
  induction as generalizing s with
  | nil => exact start
  | cons a as ih => exact ih (preserves s a start h.1) h.2

theorem final_of_step (start : P s) (preserves : ∀ s a, P s → P (step s a)) :
    P (final step s as) := by
  induction as generalizing s with
  | nil => exact start
  | cons a as ih => exact ih (preserves s a start)

/-- **Exact run rule.** `I` is what the system keeps in any case. -/
theorem always_iff_along {I : σ → Prop} (start : P s) (inv : I s)
    (keeps : ∀ s a, I s → I (step s a))
    (exact_step : ∀ s a, I s → P s → (P (step s a) ↔ ok s a)) :
    Always step P s as ↔ Along step ok s as := by
  induction as generalizing s with
  | nil => simpa [Always] using start
  | cons a as ih =>
    rw [Always, along_cons, ← exact_step s a inv start]
    constructor
    · rintro ⟨-, h⟩
      have next : P (step s a) := always_iff.mp h [] List.nil_prefix
      exact ⟨next, (ih next (keeps s a inv)).mp h⟩
    · rintro ⟨next, h⟩
      exact ⟨start, (ih next (keeps s a inv)).mpr h⟩

end Runs
