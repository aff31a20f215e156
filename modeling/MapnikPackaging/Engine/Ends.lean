/-
`make1` comes to an end.

Before an interrupt each turn takes a target a step further, or leaves less on the stack and less to
run. After one it only takes states off the stack.

* `step_less` — whatever happens, less is left.
* `make1_ends` — there is no endless run.
-/

import MapnikPackaging.Engine.Runs
import Mathlib.Algebra.Order.BigOperators.Group.Finset
import Mathlib.Data.Prod.Lex
import Mathlib.Data.Fintype.Basic
import Mathlib.Order.WellFounded

namespace MapnikPackaging

namespace Make

open Function (update)
open Graphs Relation

variable {T A R N : Type} {g : Graph T A R N} {s s' : State T A R N} {t c : T}
  {par : Option T} {f : Frame T} {rest : List (Frame T)} {waits : List (T × T)}

/-! ### What is left -/

/-- How far a target is from being done. -/
def rank : Progress → ℤ → ℕ
  | .init, _ => 4
  | .onstack, _ => 3
  | .active, n => if n = 0 then 1 else 2
  | .running, _ => 1
  | .done, _ => 0
  | .semaphore, _ => 0

def State.rank (s : State T A R N) (t : T) : ℕ := Make.rank (s.progress t) (s.asynccnt t)

/-- The states `make1c` on the stack. -/
def between (stack : List (Frame T)) : ℕ := stack.countP fun f => f.curstate = .make1c

/-- Commands, and states on the stack. -/
def State.todo [Fintype T] (s : State T A R N) : ℕ :=
  4 * ∑ t, (s.cmds t).length + 2 * s.slots.length + 2 * between s.stack + s.stack.length

def State.remaining [Fintype T] (s : State T A R N) : ℕ ×ₗ ℕ ×ₗ ℕ :=
  if s.intr then toLex (0, toLex (between s.stack, 2 * s.slots.length + s.stack.length))
  else toLex (1, toLex (∑ t, s.rank t, s.todo))

@[simp] theorem between_cons : between (f :: rest) =
    between rest + if f.curstate = .make1c then 1 else 0 := by
  simp only [between, List.countP_cons, decide_eq_true_eq]

theorem between_append {new : List (Frame T)} (none : ∀ f ∈ new, f.curstate ≠ .make1c) :
    between (new ++ rest) = between rest := by
  have : new.countP (fun f => f.curstate = .make1c) = 0 := by
    simpa [List.countP_eq_zero] using none
  rw [between, List.countP_append, this, Nat.zero_add, between]

/-- A target is further, or all are as far and there is less to do. -/
def Less [Fintype T] (s' s : State T A R N) : Prop :=
  ((∃ t, s'.rank t < s.rank t) ∧ ∀ t, s'.rank t ≤ s.rank t) ∨
    ((∀ t, s'.rank t = s.rank t) ∧ s'.todo < s.todo)

theorem Less.remaining [Fintype T] (h : Less s' s) (calm : s.intr = false)
    (calm' : s'.intr = false) : s'.remaining < s.remaining := by
  simp only [State.remaining, calm, calm', Bool.false_eq_true, if_false,
    Prod.Lex.toLex_lt_toLex, lt_self_iff_false, false_or, true_and]
  rcases h with ⟨⟨t, less⟩, le⟩ | ⟨same, less⟩
  · exact .inl (Finset.sum_lt_sum (fun t _ => le t) ⟨t, Finset.mem_univ t, less⟩)
  · exact .inr ⟨Finset.sum_congr rfl fun t _ => same t, less⟩

/-! ### Turns -/

section Turns

variable [DecidableEq T] [Fintype T]

omit [DecidableEq T] in
/-- Only the stack gets shorter. -/
theorem Less.of_stack (same : ∀ t, s'.rank t = s.rank t) (cmds : s'.cmds = s.cmds)
    (slots : s'.slots = s.slots) (between : between s'.stack ≤ between s.stack)
    (shorter : s'.stack.length < s.stack.length) : Less s' s := by
  refine .inr ⟨same, ?_⟩
  simp only [State.todo, cmds, slots]
  omega

/-- A target makes one step further. -/
theorem Less.of_target (less : s'.rank t < s.rank t)
    (others : ∀ t', t' ≠ t → s'.rank t' ≤ s.rank t') : Less s' s := by
  refine .inl ⟨⟨t, less⟩, fun t' => ?_⟩
  by_cases same : t' = t
  · exact same ▸ less.le
  · exact others t' same

omit [Fintype T] in
/-- A parent that is noted has tokens already. -/
theorem register_rank (inv : Inv g waits s) (top : s.stack = ⟨c, par, .make1a⟩ :: rest) :
    (s.register c par).rank = s.rank := by
  rcases register_eq s c par with ⟨-, same⟩ | ⟨p, rfl, -, registered⟩
  · rw [same]
  · have anchored := inv.anchored
    rw [top] at anchored
    obtain ⟨f, hf, holds⟩ := anchored.1 rfl p rfl
    have owes : 1 ≤ owed g waits s.stack s.parents p :=
      owed_pos (top ▸ List.mem_cons_of_mem _ hf) holds
    obtain ⟨hp, -, count⟩ := inv.waiting owes
    rw [registered]
    funext t
    simp only [State.rank]
    by_cases same : t = p
    · subst same
      rw [Function.update_self]
      rcases hp with hp | hp <;> simp only [hp, rank]
      rw [if_neg (by omega), if_neg (by omega)]
    · rw [Function.update_of_ne same]

/-- One command less. -/
theorem todo_ended {cmd : Cmd R N} {others : List (Cmd R N)} (cmds : s.cmds t = cmd :: others) :
    ∑ t', (update s.cmds t others t').length < ∑ t', (s.cmds t').length := by
  refine Finset.sum_lt_sum (fun t' _ => ?_) ⟨t, Finset.mem_univ t, ?_⟩
  · by_cases same : t' = t
    · subst same
      simp [cmds]
    · rw [Function.update_of_ne same]
  · simp [cmds]

variable [DecidableEq A] [DecidableEq R] [DecidableEq N]

theorem make1b_less (inv : Inv g waits s) (top : s.stack = ⟨t, par, .make1b⟩ :: rest)
    (turn : s.make1b g false ⟨t, par, .make1b⟩ = .ok s') : Less s' s := by
  have owes : 1 ≤ owed g waits s.stack s.parents t :=
    owed_pos (top ▸ List.mem_cons_self) (holds_mk.mpr ⟨rfl, .inr rfl⟩)
  obtain ⟨hp, -, count⟩ := inv.waiting owes
  have apart : ∀ x, g.semaphore t = some x → x ≠ t := fun x =>
    inv.ne_semaphore (by rcases hp with hp | hp <;> simp [hp])
  rcases make1b_cases top apart turn with
    ⟨more, rfl⟩ | ⟨-, x, -, -, rfl⟩ | ⟨one, -, started, -⟩
  · refine .of_stack (fun t' => ?_) rfl rfl (by simp [top]) (by simp [top])
    simp only [State.rank]
    by_cases same : t' = t
    · subst same
      rw [Function.update_self]
      rcases hp with hp | hp <;> simp only [hp, rank]
      rw [if_neg (by omega), if_neg (by omega)]
    · rw [Function.update_of_ne same]
  · exact .of_stack (fun _ => rfl) rfl rfl (by simp [top]) (by simp [top])
  · have active := inv.last top one
    refine .of_target (t := t) ?_ fun t' ne => ?_
    · have before : s.rank t = 2 := by simp [State.rank, rank, active, one]
      have zero : s'.asynccnt t = 0 := by simp [started.asynccnt]
      rw [before, State.rank, zero]
      rcases started.prepared with ⟨same, -⟩ | ⟨running, -⟩
      · simp [same, active, rank]
      · simp [running, rank]
    · rw [State.rank, State.rank, started.progress t' ne, started.asynccnt, if_neg ne]
      by_cases own : g.semaphore t = some t'
      · rw [inv.semaphore t t' own]
        rfl
      · rw [if_neg own, add_zero]

omit [DecidableEq R] [DecidableEq N] in
theorem make1c_less (inv : Inv g waits s) (top : s.stack = ⟨t, par, .make1c⟩ :: rest)
    (turn : s.make1c g false ⟨t, par, .make1c⟩ = .ok s') : Less s' s := by
  rcases make1c_cases top turn with ⟨-, -, -, rfl⟩ | ⟨-, -, -, -, log, rfl⟩ | ⟨-, turn⟩
  · refine .inr ⟨fun _ => rfl, ?_⟩
    simp [State.todo, top]
  · refine .inr ⟨fun _ => rfl, ?_⟩
    simp only [State.todo, top, between_cons, List.length_append, List.length_cons, if_true,
      List.length_nil]
    omega
  · obtain ⟨asked, woken, finished, -⟩ := finish_cases turn
    obtain ⟨hp, -, -, -, zero⟩ := inv.working (t := t) (by simp [top])
    refine .of_target (t := t) ?_ fun t' ne => ?_
    · have before : s.rank t = 1 := by rcases hp with hp | hp <;> simp [State.rank, rank, hp, zero]
      rw [before, State.rank, finished.progress, Function.update_self]
      exact Nat.zero_lt_one
    · rw [State.rank, State.rank, finished.progress, Function.update_of_ne ne, finished.asynccnt]
      by_cases own : g.semaphore t = some t'
      · rw [inv.semaphore t t' own]
        rfl
      · rw [if_neg own, sub_zero]

/-- **Before an interrupt** a turn leaves less to do. -/
theorem next_less (inv : Inv g waits s) (calm : s.intr = false) (top : s.stack = f :: rest)
    (turn : s.next g = .ok s') : Less s' s := by
  obtain ⟨t, par, curstate⟩ := f
  unfold State.next at turn
  rw [top] at turn
  simp only [calm, Bool.false_eq_true, if_false] at turn
  cases curstate with
  | make1a =>
    have registered := register_rank inv top
    obtain ⟨parents, asynccnt, same⟩ := register_same s t par
    rw [← Except.ok.inj turn]
    rcases make1a_cases top calm with ⟨-, turn⟩ | ⟨fresh, turn⟩ <;> rw [turn]
    · refine .of_stack (fun t' => congrFun registered t') ?_ ?_ ?_ ?_
      · rw [same]
      · rw [same]
      · simp [top]
      · simp [top]
    · refine .of_target (t := t) ?_ fun t' ne => ?_
      · simp [State.rank, rank, fresh]
      · have := congrFun registered t'
        simp only [State.rank] at this ⊢
        rw [Function.update_of_ne ne, Function.update_of_ne ne, ← this, same]
  | make1atail =>
    rw [← Except.ok.inj turn, make1atail_eq top]
    have onstack : s.progress t = .onstack := inv.mem_opened.mp (by simp [top])
    refine .of_target (t := t) ?_ fun t' ne => ?_
    · simp only [State.rank, Function.update_self, onstack, rank]
      split <;> omega
    · simp [State.rank, Function.update_of_ne ne]
  | make1b => exact make1b_less inv top turn
  | make1c => exact make1c_less inv top turn
  | make1d status =>
    obtain ⟨cmd, others, log, intr, cmds, -, -, rfl⟩ := make1d_cases top turn
    refine .inr ⟨fun _ => rfl, ?_⟩
    have := todo_ended cmds
    simp only [State.todo, top, between_cons, List.length_cons, if_true, reduceCtorEq, if_false]
    omega

/-- After an interrupt the stack gets shorter, once the state `make1c` on top of it is gone. -/
theorem next_halted (h : Paced g s) (halted : s.intr = true) (top : s.stack = f :: rest)
    (turn : s.next g = .ok s') : s'.remaining < s.remaining := by
  have halted' : s'.intr = true := by
    by_contra calm
    simp [next_intr turn (by simpa using calm)] at halted
  obtain ⟨slots, told, below, stack, suffix, why, notMake1c⟩ :=
    next_popped halted top (h.halted halted f (top ▸ List.mem_cons_self)) turn
  have fewer : between below ≤ between rest := suffix.sublist.countP_le
  have shorter : below.length ≤ rest.length := suffix.length_le
  simp only [State.remaining, halted, halted', if_true, Prod.Lex.toLex_lt_toLex, lt_self_iff_false,
    false_or, true_and, slots, stack, top, between_append notMake1c, between_cons,
    List.length_append, List.length_cons]
  rcases why with rfl | here
  · rw [List.length_nil]
    omega
  · rw [if_pos here]
    omega

/-- **Whatever happens, less is left.** -/
theorem step_less (h : Reachable g s) (step : Step g s s') : s'.remaining < s.remaining := by
  cases step with
  | turn some _ turn =>
    obtain ⟨f, rest, top⟩ := List.exists_cons_of_ne_nil some
    by_cases halted : s.intr = true
    · exact next_halted h.paced halted top turn
    · have calm : s.intr = false := by simpa using halted
      obtain ⟨waits, inv⟩ := h.inv calm
      have less := next_less inv calm top turn
      by_cases halted' : s'.intr = true
      · simp [State.remaining, calm, halted', Prod.Lex.toLex_lt_toLex]
      · exact less.remaining calm (by simpa using halted')
  | wait ended _ runs =>
    obtain ⟨new, slots, same, make1d, length, -, count⟩ := closures_eq runs
    have notMake1c : ∀ f ∈ new, f.curstate ≠ .make1c := by
      intro f hf
      obtain ⟨status, hs⟩ := make1d f hf
      simp [hs]
    have some : 0 < new.length := length ▸ List.length_pos_of_ne_nil ended
    rw [same]
    by_cases halted : s.intr = true
    · simp only [State.remaining, halted, if_true, Prod.Lex.toLex_lt_toLex, lt_self_iff_false,
        false_or, true_and, between_append notMake1c, List.length_append]
      omega
    · have calm : s.intr = false := by simpa using halted
      refine Less.remaining (.inr ⟨fun _ => rfl, ?_⟩) calm calm
      simp only [State.todo, between_append notMake1c, List.length_append]
      omega

/-- **There is no endless run**: `make1` ends for all graphs, whatever becomes of the commands, as
long as each command does. -/
theorem make1_ends (run : ℕ → State T A R N) (h : Reachable g (run 0)) :
    ∃ n, ¬ Step g (run n) (run (n + 1)) := by
  by_contra endless
  simp only [not_exists, not_not] at endless
  have reached : ∀ n, Reachable g (run n) := by
    intro n
    induction n with
    | zero => exact h
    | succ n ih => exact ih.step (endless n)
  have descends : ∀ n, (run (n + 1)).remaining < (run n).remaining := fun n =>
    step_less (reached n) (endless n)
  obtain ⟨_, ⟨n, rfl⟩, least⟩ :=
    wellFounded_lt.has_min (Set.range fun n => (run n).remaining) ⟨_, 0, rfl⟩
  exact least _ ⟨n + 1, rfl⟩ (descends n)

theorem make1_ends_pair : ∃ n, ¬ Step pair (pairAfter n) (pairAfter (n + 1)) :=
  make1_ends pairAfter (pairAfter_reachable 0 rfl)

end Turns

end Make

end MapnikPackaging
