/-
Commands under `set -e`.

A command takes a state to the next one, or stops the script in the state it was in. `Ends J K`
says what holds of the state in either case, so one rule serves for what a script keeps, for what
is true wherever it stops, and, with `K` false, for running to the end.

* `Ends.bind` — one command after another.
* `ends_foldlM_rest`, `ends_foldlM` — a loop.
-/

import Mathlib.Data.List.Basic

namespace Shell

variable {σ β : Type} {J K L : σ → Prop} {r : Except σ σ} {s : σ}

/-- `J` where the script goes on and `K` where it stops. -/
def Ends (J K : σ → Prop) : Except σ σ → Prop
  | .ok s => J s
  | .error s => K s

/-- The state a script leaves, whether it runs to its end or not. -/
def left : Except σ σ → σ
  | .ok s => s
  | .error s => s

theorem Ends.of_ok (h : Ends J K r) (ran : r = .ok s) : J s := by
  subst ran
  exact h

theorem Ends.left (h : Ends J J r) : J (left r) := by
  cases r <;> exact h

theorem Ends.completes (h : Ends J (fun _ => False) r) : ∃ s, r = .ok s ∧ J s := by
  cases r with
  | ok s => exact ⟨s, rfl, h⟩
  | error s => exact h.elim

theorem Ends.mono {J' K' : σ → Prop} (h : Ends J K r) (normal : ∀ s, J s → J' s)
    (stopped : ∀ s, K s → K' s) : Ends J' K' r := by
  cases r with
  | ok s => exact normal s h
  | error s => exact stopped s h

/-- **One command after another.** -/
theorem Ends.bind {f : σ → Except σ σ} (h : Ends J K r) (next : ∀ s, J s → Ends L K (f s)) :
    Ends L K (r >>= f) := by
  cases r with
  | ok s => exact next s h
  | error s => exact h

/-- **A loop.** The invariant may speak of the rounds that are left. -/
theorem ends_foldlM_rest {f : σ → β → Except σ σ} {I : List β → σ → Prop} {xs : List β}
    (start : I xs s) (round : ∀ x rest s, x ∈ xs → I (x :: rest) s → Ends (I rest) K (f s x)) :
    Ends (I []) K (xs.foldlM f s) := by
  induction xs generalizing s with
  | nil => exact start
  | cons x xs ih =>
    rw [List.foldlM_cons]
    apply (round x xs s (by simp) start).bind
    intro s' hs'
    exact ih hs' fun y rest s hy => round y rest s (List.mem_cons_of_mem x hy)

theorem ends_foldlM {f : σ → β → Except σ σ} {xs : List β} (start : J s)
    (round : ∀ x ∈ xs, ∀ s, J s → Ends J K (f s x)) : Ends J K (xs.foldlM f s) :=
  ends_foldlM_rest (I := fun _ => J) start fun x _ s hx => round x hx s

end Shell
