/-
What `asynccnt` counts.

A target that is being made owes its progress to tokens: its own state on the stack, a state
`make1b` of its own, a dependency that has it among its parents, or its place in the queue of a
semaphore. `asynccnt` is their number. When the last is gone the target is at work: it has one state
`make1c` or `make1d`, or one command that runs.

* `Inv` — this, and that a semaphore is held by the one target at work with it.
* `Reachable.inv` — it holds in every state, until an interrupt.
* `Inv.alone` — a semaphore never has two targets at work, and a target never two commands.
-/

import MapnikPackaging.Engine.Turns
import Mathlib.Tactic.Tauto

namespace MapnikPackaging

namespace Make

open Function (update)

variable {T A R N : Type} {t t' p c x : T} {f : Frame T} {rest : List (Frame T)}

/-! ### Tokens -/

/-- The state is a token of the target. -/
def Frame.Holds (t : T) (f : Frame T) : Prop :=
  f.t = t ∧ (f.curstate = .make1atail ∨ f.curstate = .make1b)

/-- The target is on the stack to ask for its dependencies. -/
def Frame.Opens (t : T) (f : Frame T) : Prop := f.t = t ∧ f.curstate = .make1atail

/-- The target is between its commands. -/
def Frame.Works (t : T) (f : Frame T) : Prop :=
  f.t = t ∧ f.curstate ≠ .make1a ∧ f.curstate ≠ .make1atail ∧ f.curstate ≠ .make1b

@[simp] theorem holds_mk {par : Option T} {curstate : Curstate} :
    Frame.Holds t ⟨t', par, curstate⟩ ↔
      t' = t ∧ (curstate = .make1atail ∨ curstate = .make1b) := Iff.rfl

@[simp] theorem opens_mk {par : Option T} {curstate : Curstate} :
    Frame.Opens t ⟨t', par, curstate⟩ ↔ t' = t ∧ curstate = .make1atail := Iff.rfl

@[simp] theorem works_mk {par : Option T} {curstate : Curstate} :
    Frame.Works t ⟨t', par, curstate⟩ ↔
      t' = t ∧ curstate ≠ .make1a ∧ curstate ≠ .make1atail ∧ curstate ≠ .make1b := Iff.rfl

/-- A target that is asked for on behalf of a parent stands above a token of the parent. -/
def Anchored : List (Frame T) → Prop
  | [] => True
  | f :: rest =>
    (f.curstate = .make1a → ∀ p ∈ f.parent, ∃ f' ∈ rest, Frame.Holds p f') ∧ Anchored rest

theorem anchored_append {l m : List (Frame T)} (asked : ∀ f ∈ l, ∀ p ∈ f.parent,
    f.curstate = .make1a → ∃ f' ∈ m, Frame.Holds p f') (h : Anchored m) : Anchored (l ++ m) := by
  induction l with
  | nil => exact h
  | cons f l ih =>
    refine ⟨fun hf p hp => ?_, ih fun f hf => asked f (List.mem_cons_of_mem _ hf)⟩
    obtain ⟨f', hf', holds⟩ := asked f List.mem_cons_self p hp hf
    exact ⟨f', List.mem_append_right _ hf', holds⟩

variable [DecidableEq T]

instance (t : T) : DecidablePred (Frame.Holds t) := fun f => by
  unfold Frame.Holds
  infer_instance

instance (t : T) : DecidablePred (Frame.Opens t) := fun f => by
  unfold Frame.Opens
  infer_instance

instance (t : T) : DecidablePred (Frame.Works t) := fun f => by
  unfold Frame.Works
  infer_instance

/-- How often the target waits in the queue of its semaphore. -/
def queued (g : Graph T A R N) (parents : T → List T) (t : T) : ℕ :=
  (g.semaphore t).elim 0 fun x => (parents x).count t

/-- The tokens of a target. `waits` has a pair for each target and each of its parents, until it is
done. -/
def owed (g : Graph T A R N) (waits : List (T × T)) (stack : List (Frame T))
    (parents : T → List T) (t : T) : ℕ :=
  stack.countP (Frame.Holds t) + waits.countP (fun w => w.2 = t) + queued g parents t

/-- Whether the target is at work. -/
def work (stack : List (Frame T)) (slots : List T) (t : T) : ℕ :=
  stack.countP (Frame.Works t) + slots.count t

def opens (stack : List (Frame T)) (t : T) : ℕ := stack.countP (Frame.Opens t)

/-- What the count, the tokens and the work of a target are at each point of its progress. -/
def Accounts : Progress → ℤ → ℕ → ℕ → ℕ → Prop
  | .onstack, n, owed, work, opens => n = owed ∧ 1 ≤ owed ∧ work = 0 ∧ opens = 1
  | .active, n, owed, work, opens =>
    n = owed ∧ opens = 0 ∧ (1 ≤ owed ∧ work = 0 ∨ owed = 0 ∧ work = 1)
  | .running, n, owed, work, opens => n = owed ∧ owed = 0 ∧ work = 1 ∧ opens = 0
  | .init, _, owed, work, opens => owed = 0 ∧ work = 0 ∧ opens = 0
  | .done, _, owed, work, opens => owed = 0 ∧ work = 0 ∧ opens = 0
  | .semaphore, _, owed, work, opens => owed = 0 ∧ work = 0 ∧ opens = 0

/-- The semaphore is free, or held by the one target that is at work with it. -/
def Locks (g : Graph T A R N) (n : ℤ) (work : T → ℕ) (x : T) : Prop :=
  (n = 0 ∧ ∀ t, g.semaphore t = some x → work t = 0) ∨
  (n = 1 ∧ ∃ t, g.semaphore t = some x ∧ work t = 1 ∧
    ∀ t', g.semaphore t' = some x → t' ≠ t → work t' = 0)

structure Inv (g : Graph T A R N) (waits : List (T × T)) (s : State T A R N) : Prop where
  accounts : ∀ t, Accounts (s.progress t) (s.asynccnt t) (owed g waits s.stack s.parents t)
    (work s.stack s.slots t) (opens s.stack t)
  waits : ∀ c p, waits.count (c, p) =
    if s.progress c = .done ∨ s.progress c = .semaphore then 0 else (s.parents c).count p
  anchored : Anchored s.stack
  command : ∀ f ∈ s.stack, ∀ status, f.curstate = .make1d status →
    s.cmds f.t ≠ [] ∧ s.status f.t = .ok
  slots : ∀ t ∈ s.slots, s.cmds t ≠ [] ∧ s.status t = .ok
  semaphore : ∀ t x, g.semaphore t = some x → s.progress x = .semaphore
  queue : ∀ x, s.progress x = .semaphore → ∀ t ∈ s.parents x, g.semaphore t = some x
  locks : ∀ x, s.progress x = .semaphore → Locks g (s.asynccnt x) (work s.stack s.slots) x

variable {g : Graph T A R N} {waits : List (T × T)} {s s' : State T A R N}
  {stack : List (Frame T)} {parents : T → List T} {slots l : List T} {n : ℤ}

/-! ### Counting -/

@[simp] theorem work_cons : work (f :: stack) slots t =
    work stack slots t + if Frame.Works t f then 1 else 0 := by
  simp only [work, List.countP_cons, decide_eq_true_eq]
  omega

@[simp] theorem opens_cons : opens (f :: stack) t =
    opens stack t + if Frame.Opens t f then 1 else 0 := by
  simp only [opens, List.countP_cons, decide_eq_true_eq]

@[simp] theorem owed_cons : owed g waits (f :: stack) parents t =
    owed g waits stack parents t + if Frame.Holds t f then 1 else 0 := by
  simp only [owed, List.countP_cons, decide_eq_true_eq]
  omega

/-- A new pair of a target and its parent. -/
theorem owed_wait (apart : ∀ x, g.semaphore t = some x → x ≠ c) :
    owed g ((c, p) :: waits) stack (update parents c l) t =
      owed g waits stack parents t + if p = t then 1 else 0 := by
  have same : queued g (update parents c l) t = queued g parents t := by
    unfold queued
    cases hx : g.semaphore t with
    | none => rfl
    | some x => simp [Function.update_of_ne (apart x hx)]
  simp only [owed, List.countP_cons, same, decide_eq_true_eq]
  omega

theorem owed_pos (hf : f ∈ stack) (holds : Frame.Holds t f) :
    1 ≤ owed g waits stack parents t := by
  have : 0 < stack.countP (Frame.Holds t) := List.countP_pos_iff.mpr ⟨f, hf, by simpa using holds⟩
  unfold owed
  omega

theorem opens_le : opens stack t ≤ owed g waits stack parents t := by
  have : opens stack t ≤ stack.countP (Frame.Holds t) := by
    apply List.countP_mono_left
    intro f _ open'
    simp only [decide_eq_true_eq] at open' ⊢
    exact ⟨open'.1, .inl open'.2⟩
  unfold owed
  omega

theorem works_notMem (none : work stack slots t = 0) :
    t ∉ slots ∧ ∀ f ∈ stack, ¬ Frame.Works t f := by
  have stack : stack.countP (Frame.Works t) = 0 := by
    unfold work at none
    omega
  have slots : slots.count t = 0 := by
    unfold work at none
    omega
  exact ⟨List.count_eq_zero.mp slots, by simpa [List.countP_eq_zero] using stack⟩

omit [DecidableEq T] in
theorem Locks.congr {w w' : T → ℕ} (h : Locks g n w x)
    (same : ∀ t, g.semaphore t = some x → w' t = w t) : Locks g n w' x := by
  rcases h with ⟨zero, none⟩ | ⟨one, t, ht, works, others⟩
  · exact .inl ⟨zero, fun t ht => (same t ht).trans (none t ht)⟩
  · refine .inr ⟨one, t, ht, (same t ht).trans works, fun t' ht' ne => ?_⟩
    exact (same t' ht').trans (others t' ht' ne)

section Told

variable {asked : List (Frame T)}

/-- States `make1b` of the parents, under states `make1a`, are a token for each. -/
theorem owed_told (h : ∀ f ∈ asked, f.curstate = .make1a) :
    owed g waits (asked ++ l.map (fun c => ⟨c, none, .make1b⟩) ++ stack) parents t =
      owed g waits stack parents t + l.count t := by
  have ask : asked.countP (Frame.Holds t) = 0 := by
    simpa [List.countP_eq_zero, Frame.Holds] using fun f hf => by simp [h f hf]
  have told : (l.map fun c => (⟨c, none, .make1b⟩ : Frame T)).countP (Frame.Holds t) =
      l.count t := by
    rw [List.countP_map, List.count]
    exact List.countP_congr fun c _ => by simp
  simp only [owed, List.countP_append, ask, told]
  omega

theorem work_told (h : ∀ f ∈ asked, f.curstate = .make1a) :
    work (asked ++ l.map (fun c => ⟨c, none, .make1b⟩) ++ stack) slots t = work stack slots t := by
  have ask : asked.countP (Frame.Works t) = 0 := by
    simpa [List.countP_eq_zero, Frame.Works] using fun f hf => by simp [h f hf]
  have told : (l.map fun c => (⟨c, none, .make1b⟩ : Frame T)).countP (Frame.Works t) = 0 := by
    simp [List.countP_eq_zero]
  simp only [work, List.countP_append, ask, told]
  omega

theorem opens_told (h : ∀ f ∈ asked, f.curstate = .make1a) :
    opens (asked ++ l.map (fun c => ⟨c, none, .make1b⟩) ++ stack) t = opens stack t := by
  have ask : asked.countP (Frame.Opens t) = 0 := by
    simpa [List.countP_eq_zero, Frame.Opens] using fun f hf => by simp [h f hf]
  have told : (l.map fun c => (⟨c, none, .make1b⟩ : Frame T)).countP (Frame.Opens t) = 0 := by
    simp [List.countP_eq_zero]
  simp only [opens, List.countP_append, ask, told]
  omega

end Told

/-- The pairs of a target that is done are gone. -/
theorem owed_done : owed g (waits.filter fun w => w.1 ≠ c) stack parents t + waits.count (c, t) =
    owed g waits stack parents t := by
  have split : (waits.filter fun w => w.1 ≠ c).countP (fun w => w.2 = t) + waits.count (c, t) =
      waits.countP (fun w => w.2 = t) := by
    induction waits with
    | nil => rfl
    | cons w waits ih =>
      obtain ⟨c', p⟩ := w
      by_cases hc : c' = c <;> by_cases hp : p = t <;>
        simp [hc, hp] at ih ⊢ <;> omega
  simp only [owed]
  omega

/-! ### Consequences -/

/-- A target with a token is waiting. -/
theorem Inv.waiting (h : Inv g waits s) (owes : 1 ≤ owed g waits s.stack s.parents t) :
    (s.progress t = .onstack ∨ s.progress t = .active) ∧ work s.stack s.slots t = 0 ∧
      s.asynccnt t = owed g waits s.stack s.parents t := by
  have := h.accounts t
  cases hp : s.progress t <;> rw [hp] at this <;> simp only [Accounts] at this <;> simp <;> omega

/-- A target at work waits for nothing. -/
theorem Inv.working (h : Inv g waits s) (works : 1 ≤ work s.stack s.slots t) :
    (s.progress t = .active ∨ s.progress t = .running) ∧ work s.stack s.slots t = 1 ∧
      owed g waits s.stack s.parents t = 0 ∧ opens s.stack t = 0 ∧ s.asynccnt t = 0 := by
  have := h.accounts t
  cases hp : s.progress t <;> rw [hp] at this <;> simp only [Accounts] at this <;> simp <;> omega

theorem Inv.ne_semaphore (h : Inv g waits s) (ht : s.progress t ≠ .semaphore)
    (hx : g.semaphore t' = some x) : x ≠ t := by
  rintro rfl
  exact ht (h.semaphore t' x hx)

/-! ### Moves -/

/-- A dependency notes its parent. -/
theorem Inv.register (h : Inv g waits s) (owes : 1 ≤ owed g waits s.stack s.parents p)
    (hc : s.progress c = .init ∨ s.progress c = .active ∨ s.progress c = .running) :
    Inv g ((c, p) :: waits) { s with
      parents := update s.parents c (s.parents c ++ [p])
      asynccnt := update s.asynccnt p (s.asynccnt p + 1) } := by
  obtain ⟨hp, -, -⟩ := h.waiting owes
  have plain : s.progress c ≠ .semaphore ∧ s.progress p ≠ .semaphore := by
    rcases hc with hc | hc | hc <;> rcases hp with hp | hp <;> simp [hc, hp]
  have apart : ∀ x, s.progress x = .semaphore → x ≠ c ∧ x ≠ p := by
    refine fun x hx => ⟨?_, ?_⟩ <;> rintro rfl
    · exact plain.1 hx
    · exact plain.2 hx
  refine
    { accounts := fun t => ?_, waits := fun c' p' => ?_, anchored := h.anchored,
      command := h.command, slots := h.slots, semaphore := h.semaphore,
      queue := fun x hx => ?_, locks := fun x hx => ?_ }
  · have before := h.accounts t
    dsimp only
    rw [owed_wait fun x hx => h.ne_semaphore plain.1 hx]
    by_cases ht : p = t
    · subst ht
      rcases hp with hp | hp <;>
        simp only [hp, Accounts, Function.update_self, if_true] at before ⊢ <;> omega
    · rwa [Function.update_of_ne (Ne.symm ht), if_neg ht, Nat.add_zero]
  · have before := h.waits c' p'
    have notDone : s.progress c ≠ .done ∧ s.progress c ≠ .semaphore := by
      rcases hc with hc | hc | hc <;> simp [hc]
    dsimp only
    rw [List.count_cons, before]
    by_cases same : c' = c
    · subst same
      simp [notDone.1, notDone.2, List.count_append, List.count_singleton]
    · simp [Ne.symm same, Function.update_of_ne same]
  · dsimp only
    rw [Function.update_of_ne (apart x hx).1]
    exact h.queue x hx
  · dsimp only
    rw [Function.update_of_ne (apart x hx).2]
    exact h.locks x hx

/-- A move that keeps all counts. -/
theorem Inv.move (h : Inv g waits s) (status : T → Status) (cmds : T → List (Cmd R N))
    (stack : List (Frame T)) (slots : List T)
    (sameOwed : ∀ t, owed g waits stack s.parents t = owed g waits s.stack s.parents t)
    (sameWork : ∀ t, work stack slots t = work s.stack s.slots t)
    (sameOpens : ∀ t, opens stack t = opens s.stack t) (anchored : Anchored stack)
    (command : ∀ f ∈ stack, ∀ st, f.curstate = .make1d st → cmds f.t ≠ [] ∧ status f.t = .ok)
    (runs : ∀ t ∈ slots, cmds t ≠ [] ∧ status t = .ok) :
    Inv g waits { s with status, cmds, stack, slots } where
  accounts t := by simpa only [sameOwed, sameWork, sameOpens] using h.accounts t
  waits := h.waits
  anchored := anchored
  command := command
  slots := runs
  semaphore := h.semaphore
  queue := h.queue
  locks x hx := (h.locks x hx).congr fun t _ => sameWork t

/-- What is asked for again is passed over. -/
theorem Inv.pass {par : Option T} (h : Inv g waits s) (top : s.stack = ⟨c, par, .make1a⟩ :: rest) :
    Inv g waits { s with stack := rest } := by
  have anchored := h.anchored
  rw [top] at anchored
  exact h.move s.status s.cmds rest s.slots (fun t => by simp [top]) (fun t => by simp [top])
    (fun t => by simp [top]) anchored.2
    (fun f hf => h.command f (top ▸ List.mem_cons_of_mem _ hf)) h.slots

/-- A target asks for its dependencies. -/
theorem Inv.expand {par : Option T} (h : Inv g waits s)
    (top : s.stack = ⟨c, par, .make1a⟩ :: rest) (fresh : s.progress c = .init) (asked : List T) :
    Inv g waits { s with
      asynccnt := update s.asynccnt c 1
      progress := update s.progress c .onstack
      stack := asked.map (fun d => ⟨d, some c, .make1a⟩) ++ ⟨c, par, .make1atail⟩ :: rest } := by
  have zero : ∀ {P : Frame T → Prop} [DecidablePred P], (∀ d, ¬ P ⟨d, some c, .make1a⟩) →
      (asked.map fun d => (⟨d, some c, .make1a⟩ : Frame T)).countP P = 0 := by
    intro P _ none
    simpa [List.countP_eq_zero] using fun d _ => none d
  have owed' : ∀ t, owed g waits (asked.map (fun d => ⟨d, some c, .make1a⟩) ++
      ⟨c, par, .make1atail⟩ :: rest) s.parents t =
      owed g waits s.stack s.parents t + if c = t then 1 else 0 := by
    intro t
    rw [top]
    simp [owed, List.countP_append, zero, List.countP_cons]
    omega
  have work' : ∀ t, work (asked.map (fun d => ⟨d, some c, .make1a⟩) ++
      ⟨c, par, .make1atail⟩ :: rest) s.slots t = work s.stack s.slots t := by
    intro t
    rw [top]
    simp [work, List.countP_append, zero]
  have opens' : ∀ t, opens (asked.map (fun d => ⟨d, some c, .make1a⟩) ++
      ⟨c, par, .make1atail⟩ :: rest) t = opens s.stack t + if c = t then 1 else 0 := by
    intro t
    rw [top]
    simp [opens, List.countP_append, zero, List.countP_cons]
  have other : ∀ {x}, s.progress x = .semaphore → x ≠ c := by
    rintro x hx rfl
    simp [fresh] at hx
  refine
    { accounts := fun t => ?_, waits := fun c' p' => ?_, anchored := ?_,
      command := fun f hf status hs => ?_, slots := h.slots, semaphore := fun t x hx => ?_,
      queue := fun x hx => ?_, locks := fun x hx => ?_ }
  · have before := h.accounts t
    dsimp only
    rw [owed', work', opens']
    by_cases ht : c = t
    · subst ht
      simp only [fresh, Accounts, Function.update_self, if_true] at before ⊢
      omega
    · rwa [Function.update_of_ne (Ne.symm ht), Function.update_of_ne (Ne.symm ht), if_neg ht]
  · have before := h.waits c' p'
    by_cases same : c' = c
    · subst same
      simpa [fresh] using before
    · simpa [Function.update_of_ne same] using before
  · have before := h.anchored
    rw [top] at before
    refine anchored_append ?_ ⟨by simp, before.2⟩
    intro f hf p hp _
    obtain ⟨d, -, rfl⟩ := List.mem_map.mp hf
    obtain rfl := Option.mem_some.mp hp
    exact ⟨_, List.mem_cons_self, by simp⟩
  · rcases List.mem_append.mp hf with hf | hf
    · obtain ⟨d, -, rfl⟩ := List.mem_map.mp hf
      cases hs
    · rcases List.mem_cons.mp hf with rfl | hf
      · cases hs
      · exact h.command f (top ▸ List.mem_cons_of_mem _ hf) status hs
  · dsimp only
    rw [Function.update_of_ne (other (h.semaphore t x hx))]
    exact h.semaphore t x hx
  · dsimp only at hx ⊢
    by_cases same : x = c
    · subst same
      simp at hx
    · rw [Function.update_of_ne same] at hx
      exact h.queue x hx
  · dsimp only at hx ⊢
    by_cases same : x = c
    · subst same
      simp at hx
    · rw [Function.update_of_ne same] at hx ⊢
      exact (h.locks x hx).congr fun t _ => work' t

/-- All dependencies have been asked for. -/
theorem Inv.tail {par : Option T} (h : Inv g waits s)
    (top : s.stack = ⟨t, par, .make1atail⟩ :: rest) :
    Inv g waits { s with
      progress := update s.progress t .active
      stack := ⟨t, par, .make1b⟩ :: rest } := by
  have before := h.accounts t
  have onstack : s.progress t = .onstack := by
    cases hp : s.progress t <;> simp [hp, Accounts, top] at before ⊢
  have other : ∀ {x}, s.progress x = .semaphore → x ≠ t := by
    rintro x hx rfl
    simp [onstack] at hx
  have semaphore : ∀ {x}, update s.progress t .active x = .semaphore →
      s.progress x = .semaphore := by
    intro x hx
    by_cases same : x = t
    · subst same
      simp at hx
    · rwa [Function.update_of_ne same] at hx
  refine
    { accounts := fun t' => ?_, waits := fun c' p' => ?_, anchored := ?_,
      command := fun f hf status hs => ?_, slots := h.slots, semaphore := fun t' x hx => ?_,
      queue := fun x hx => h.queue x (semaphore hx), locks := fun x hx => ?_ }
  · dsimp only
    by_cases ht : t' = t
    · subst ht
      simp [onstack, Accounts, top] at before ⊢
      omega
    · simpa [Function.update_of_ne ht, top, Ne.symm ht] using h.accounts t'
  · have here := h.waits c' p'
    by_cases same : c' = t
    · subst same
      simpa [onstack] using here
    · simpa [Function.update_of_ne same] using here
  · have := h.anchored
    rw [top] at this
    exact ⟨by simp, this.2⟩
  · rcases List.mem_cons.mp hf with rfl | hf
    · cases hs
    · exact h.command f (top ▸ List.mem_cons_of_mem _ hf) status hs
  · dsimp only
    rw [Function.update_of_ne (other (h.semaphore t' x hx))]
    exact h.semaphore t' x hx
  · exact (h.locks x (semaphore hx)).congr fun t' _ => by simp [top]

/-- One token less. -/
theorem Inv.drop {par : Option T} (h : Inv g waits s)
    (top : s.stack = ⟨t, par, .make1b⟩ :: rest) (more : s.asynccnt t ≠ 1) :
    Inv g waits { s with
      asynccnt := update s.asynccnt t (s.asynccnt t - 1)
      stack := rest } := by
  have owes : 1 ≤ owed g waits s.stack s.parents t :=
    owed_pos (top ▸ List.mem_cons_self) (holds_mk.mpr ⟨rfl, .inr rfl⟩)
  obtain ⟨hp, idle, count⟩ := h.waiting owes
  have plain : s.progress t ≠ .semaphore := by rcases hp with hp | hp <;> simp [hp]
  refine
    { accounts := fun t' => ?_, waits := h.waits, anchored := ?_,
      command := fun f hf => h.command f (top ▸ List.mem_cons_of_mem _ hf), slots := h.slots,
      semaphore := h.semaphore, queue := h.queue, locks := fun x hx => ?_ }
  · have before := h.accounts t'
    by_cases ht : t' = t
    · subst ht
      rcases hp with hp | hp <;> simp [hp, Accounts, top] at before count more ⊢ <;> omega
    · simpa [Function.update_of_ne ht, top, Ne.symm ht] using before
  · have := h.anchored
    rw [top] at this
    exact this.2
  · dsimp only at hx ⊢
    rw [Function.update_of_ne]
    · exact (h.locks x hx).congr fun t' _ => by simp [top]
    · rintro rfl
      exact plain hx

/-- A target waits for its semaphore. -/
theorem Inv.enqueue {par : Option T} (h : Inv g waits s)
    (top : s.stack = ⟨t, par, .make1b⟩ :: rest) (hx : g.semaphore t = some x) :
    Inv g waits { s with
      parents := update s.parents x (s.parents x ++ [t])
      stack := rest } := by
  have isSemaphore := h.semaphore t x hx
  refine
    { accounts := fun t' => ?_, waits := fun c' p' => ?_, anchored := ?_,
      command := fun f hf => h.command f (top ▸ List.mem_cons_of_mem _ hf), slots := h.slots,
      semaphore := h.semaphore, queue := fun y hy t' ht' => ?_, locks := fun y hy => ?_ }
  · have same : owed g waits rest (update s.parents x (s.parents x ++ [t])) t' =
        owed g waits s.stack s.parents t' := by
      have : queued g (update s.parents x (s.parents x ++ [t])) t' =
          queued g s.parents t' + if t = t' then 1 else 0 := by
        unfold queued
        cases hy : g.semaphore t' with
        | none =>
          have : t ≠ t' := by
            rintro rfl
            simp [hx] at hy
          simp [this]
        | some y =>
          by_cases same : y = x
          · subst same
            simp [List.count_append, List.count_singleton]
          · have : t ≠ t' := by
              rintro rfl
              exact same (Option.some.inj (hy.symm.trans hx))
            simp [Function.update_of_ne same, this]
      rw [top, owed_cons]
      simp [owed, this]
      omega
    dsimp only
    rw [same]
    simpa [top] using h.accounts t'
  · have before := h.waits c' p'
    by_cases same : c' = x
    · subst same
      simpa [isSemaphore] using before
    · simpa [Function.update_of_ne same] using before
  · have := h.anchored
    rw [top] at this
    exact this.2
  · by_cases same : y = x
    · subst same
      simp at ht'
      rcases ht' with ht' | rfl
      · exact h.queue y hy t' ht'
      · exact hx
    · simp [Function.update_of_ne same] at ht'
      exact h.queue y hy t' ht'
  · exact (h.locks y hy).congr fun t' _ => by simp [top]

/-- A target whose tokens are gone starts its work, with its semaphore. -/
theorem Inv.start {par : Option T} (h : Inv g waits s)
    (top : s.stack = ⟨t, par, .make1b⟩ :: rest) (last : s.asynccnt t = 1)
    (free : ∀ x, g.semaphore t = some x → s.asynccnt x = 0)
    (progress : T → Progress) (status : T → Status) (cmds : T → List (Cmd R N)) (asynccnt : T → ℤ)
    (hp : progress t = .active ∨ progress t = .running)
    (sameProgress : ∀ t', t' ≠ t → progress t' = s.progress t')
    (sameStatus : ∀ t', t' ≠ t → status t' = s.status t')
    (sameCmds : ∀ t', t' ≠ t → cmds t' = s.cmds t')
    (zero : asynccnt t = 0)
    (count : ∀ t', t' ≠ t → asynccnt t' =
      s.asynccnt t' + if g.semaphore t = some t' then 1 else 0) :
    Inv g waits { s with
      progress, status, cmds, asynccnt
      stack := ⟨t, par, .make1c⟩ :: rest } := by
  have owes : 1 ≤ owed g waits s.stack s.parents t :=
    owed_pos (top ▸ List.mem_cons_self) (holds_mk.mpr ⟨rfl, .inr rfl⟩)
  obtain ⟨before, idle, tokens⟩ := h.waiting owes
  obtain ⟨noSlot, noFrame⟩ := works_notMem idle
  have plain : s.progress t ≠ .semaphore := by rcases before with hp | hp <;> simp [hp]
  have semaphore : ∀ {x}, progress x = .semaphore → x ≠ t ∧ s.progress x = .semaphore := by
    intro x hx
    have ne : x ≠ t := by
      rintro rfl
      rcases hp with hp | hp <;> simp [hp] at hx
    exact ⟨ne, (sameProgress x ne) ▸ hx⟩
  refine
    { accounts := fun t' => ?_, waits := fun c' p' => ?_, anchored := ?_,
      command := fun f hf st hs => ?_, slots := fun t' ht' => ?_,
      semaphore := fun t' x hx => ?_, queue := fun x hx => h.queue x (semaphore hx).2,
      locks := fun x hx => ?_ }
  · have accounts := h.accounts t'
    by_cases ht : t' = t
    · subst ht
      -- the last token is the state itself, so the target is not on the stack to ask
      have asks : opens rest t' ≤ owed g waits rest s.parents t' := opens_le
      rcases before with before | before <;> rcases hp with hp | hp <;>
        simp [before, hp, Accounts, top, zero] at accounts tokens last ⊢ <;> omega
    · have same : Accounts (s.progress t') (s.asynccnt t') (owed g waits s.stack s.parents t')
          (work s.stack s.slots t') (opens s.stack t') ↔
          Accounts (s.progress t') (asynccnt t') (owed g waits s.stack s.parents t')
          (work s.stack s.slots t') (opens s.stack t') := by
        rw [count t' ht]
        split
        · next hx => simp [h.semaphore t t' hx, Accounts]
        · rw [add_zero]
      dsimp only
      rw [sameProgress t' ht]
      simpa [top, Ne.symm ht] using same.mp accounts
  · dsimp only
    rw [h.waits]
    by_cases same : c' = t
    · subst same
      rcases before with before | before <;> rcases hp with hp | hp <;> simp [before, hp]
    · simp only [sameProgress c' same]
  · have := h.anchored
    rw [top] at this
    exact ⟨by simp, this.2⟩
  · rcases List.mem_cons.mp hf with rfl | hf
    · cases hs
    · have inside : f ∈ s.stack := top ▸ List.mem_cons_of_mem _ hf
      have other : f.t ≠ t := by
        intro same
        exact noFrame f inside ⟨same, by simp [hs]⟩
      dsimp only
      rw [sameCmds _ other, sameStatus _ other]
      exact h.command f inside st hs
  · have other : t' ≠ t := by
      rintro rfl
      exact noSlot ht'
    dsimp only
    rw [sameCmds _ other, sameStatus _ other]
    exact h.slots t' ht'
  · dsimp only
    rw [sameProgress x (h.ne_semaphore plain hx)]
    exact h.semaphore t' x hx
  · obtain ⟨ne, hx⟩ := semaphore hx
    have works : ∀ t', work (⟨t, par, .make1c⟩ :: rest) s.slots t' =
        work s.stack s.slots t' + if t = t' then 1 else 0 := by
      intro t'
      simp [top]
    dsimp only
    rw [count x ne]
    by_cases own : g.semaphore t = some x
    · -- free until now, the semaphore is held by the target
      have none : ∀ t', g.semaphore t' = some x → work s.stack s.slots t' = 0 := by
        rcases h.locks x hx with ⟨-, none⟩ | ⟨held, -⟩
        · exact none
        · simp [free x own] at held
      refine .inr ⟨by simp [own, free x own], t, own, by simp [works, none t own], ?_⟩
      intro t' ht' ne'
      simp [works, none t' ht', Ne.symm ne']
    · rw [if_neg own, add_zero]
      apply (h.locks x hx).congr
      intro t' ht'
      have : t ≠ t' := by
        rintro rfl
        exact own ht'
      simp [works, this]

/-- A command of the target at work is launched. -/
theorem Inv.launch {par : Option T} (h : Inv g waits s)
    (top : s.stack = ⟨t, par, .make1c⟩ :: rest) (some : s.cmds t ≠ []) (ok : s.status t = .ok) :
    Inv g waits { s with stack := rest, slots := s.slots ++ [t] } := by
  have anchored := h.anchored
  rw [top] at anchored
  refine h.move s.status s.cmds rest (s.slots ++ [t]) (fun t' => by simp [top]) (fun t' => ?_)
    (fun t' => by simp [top]) anchored.2
    (fun f hf => h.command f (top ▸ List.mem_cons_of_mem _ hf)) (fun t' ht' => ?_)
  · rw [top, work_cons]
    simp [work, List.count_append, List.count_singleton]
    omega
  · rcases List.mem_append.mp ht' with ht' | ht'
    · exact h.slots t' ht'
    · rw [List.mem_singleton.mp ht']
      exact ⟨some, ok⟩

/-- Without execution, the command ends at once. -/
theorem Inv.pretend {par : Option T} {status : Status} (h : Inv g waits s)
    (top : s.stack = ⟨t, par, .make1c⟩ :: rest) (some : s.cmds t ≠ []) (ok : s.status t = .ok) :
    Inv g waits { s with stack := ⟨t, par, .make1d status⟩ :: rest } := by
  have anchored := h.anchored
  rw [top] at anchored
  refine h.move s.status s.cmds _ s.slots (fun t' => by simp [top]) (fun t' => by simp [top])
    (fun t' => by simp [top]) ⟨by simp, anchored.2⟩ (fun f hf st hs => ?_) h.slots
  rcases List.mem_cons.mp hf with rfl | hf
  · exact ⟨some, ok⟩
  · exact h.command f (top ▸ List.mem_cons_of_mem _ hf) st hs

/-- A command has ended. -/
theorem Inv.closure {status : Status} (h : Inv g waits s) (ht : t ∈ s.slots) :
    Inv g waits (s.closure (t, status)) := by
  refine h.move s.status s.cmds _ _ (fun t' => by simp) (fun t' => ?_) (fun t' => by simp)
    ⟨by simp, h.anchored⟩ (fun f hf st hs => ?_)
    (fun t' ht' => h.slots t' (List.mem_of_mem_erase ht'))
  · have : 0 < s.slots.count t := List.count_pos_iff.mpr ht
    by_cases same : t' = t
    · subst same
      simp [work]
      omega
    · simp [work, List.count_erase_of_ne same, Ne.symm same]
  · rcases List.mem_cons.mp hf with rfl | hf
    · exact h.slots t ht
    · exact h.command f hf st hs

/-- The next command of the target is due. -/
theorem Inv.ended {par : Option T} {st : Status} (h : Inv g waits s)
    (top : s.stack = ⟨t, par, .make1d st⟩ :: rest) (status : Status) (cmds : List (Cmd R N)) :
    Inv g waits { s with
      status := update s.status t status
      cmds := update s.cmds t cmds
      stack := ⟨t, par, .make1c⟩ :: rest } := by
  have anchored := h.anchored
  rw [top] at anchored
  obtain ⟨-, one, -⟩ := h.working (t := t) (by simp [top])
  have idle : work rest s.slots t = 0 := by simpa [top] using one
  obtain ⟨noSlot, noFrame⟩ := works_notMem idle
  refine h.move _ _ _ s.slots (fun t' => by simp [top]) (fun t' => by simp [top])
    (fun t' => by simp [top]) ⟨by simp, anchored.2⟩ (fun f hf st' hs => ?_) (fun t' ht' => ?_)
  · rcases List.mem_cons.mp hf with rfl | hf
    · cases hs
    · have other : f.t ≠ t := fun same => noFrame f hf ⟨same, by simp [hs]⟩
      rw [Function.update_of_ne other, Function.update_of_ne other]
      exact h.command f (top ▸ List.mem_cons_of_mem _ hf) st' hs
  · have other : t' ≠ t := by
      rintro rfl
      exact noSlot ht'
    rw [Function.update_of_ne other, Function.update_of_ne other]
    exact h.slots t' ht'

/-- Nothing is owed to a goal. -/
theorem Inv.goal (h : Inv g waits s) (empty : s.stack = []) (goal : T) :
    Inv g waits { s with stack := [⟨goal, none, .make1a⟩] } :=
  h.move s.status s.cmds _ s.slots (fun t => by simp [empty]) (fun t => by simp [empty])
    (fun t => by simp [empty]) ⟨by simp, trivial⟩ (by simp) h.slots

/-- The first that waits for a semaphore gets a state of its own instead. -/
theorem Inv.wake (h : Inv g waits s) (top : s.stack = f :: rest) (hf : f.curstate = .make1c)
    (hx : s.progress x = .semaphore) {first : T} {others : List T}
    (queue : s.parents x = first :: others) :
    Inv g waits { s with
      parents := update s.parents x others
      stack := f :: ⟨first, none, .make1b⟩ :: rest } := by
  have own : g.semaphore first = some x := h.queue x hx first (by simp [queue])
  have sameOwed : ∀ t', owed g waits (f :: ⟨first, none, .make1b⟩ :: rest)
      (update s.parents x others) t' = owed g waits s.stack s.parents t' := by
    intro t'
    have : queued g s.parents t' =
        queued g (update s.parents x others) t' + if first = t' then 1 else 0 := by
      unfold queued
      cases hy : g.semaphore t' with
      | none =>
        have : first ≠ t' := by
          rintro rfl
          simp [own] at hy
        simp [this]
      | some y =>
        by_cases same : y = x
        · subst same
          simp [queue, List.count_cons]
        · have : first ≠ t' := by
            rintro rfl
            exact same (Option.some.inj (hy.symm.trans own))
          simp [Function.update_of_ne same, this]
    rw [top, owed_cons, owed_cons, owed_cons]
    simp [owed, this]
    omega
  have sameWork : ∀ t', work (f :: ⟨first, none, .make1b⟩ :: rest) s.slots t' =
      work s.stack s.slots t' := fun t' => by simp [top]
  refine
    { accounts := fun t' => ?_, waits := fun c' p' => ?_, anchored := ?_,
      command := fun f' hf' st hs => ?_, slots := h.slots, semaphore := h.semaphore,
      queue := fun y hy t' ht' => ?_, locks := fun y hy => ?_ }
  · dsimp only
    rw [sameOwed, sameWork]
    simpa [top] using h.accounts t'
  · have here := h.waits c' p'
    by_cases same : c' = x
    · subst same
      simpa [hx] using here
    · simpa [Function.update_of_ne same] using here
  · have anchored := h.anchored
    rw [top] at anchored
    exact ⟨by simp [hf], by simp, anchored.2⟩
  · simp only [List.mem_cons] at hf'
    rcases hf' with rfl | rfl | hf'
    · simp [hf] at hs
    · cases hs
    · exact h.command f' (top ▸ List.mem_cons_of_mem _ hf') st hs
  · by_cases same : y = x
    · subst same
      apply h.queue y hy t'
      rw [queue]
      exact List.mem_cons_of_mem _ (by simpa using ht')
    · exact h.queue y hy t' (by simpa [Function.update_of_ne same] using ht')
  · exact (h.locks y hy).congr fun t' _ => sameWork t'

/-- A target is done: its parents get states of their own instead of waiting for it. -/
theorem Inv.finish {par : Option T} (h : Inv g waits s)
    (top : s.stack = ⟨t, par, .make1c⟩ :: rest) (status : T → Status) (asynccnt : T → ℤ)
    (asked : List (Frame T)) (sameStatus : ∀ t', t' ≠ t → status t' = s.status t')
    (count : ∀ t', asynccnt t' = s.asynccnt t' - if g.semaphore t = some t' then 1 else 0)
    (hasked : ∀ f ∈ asked, f.curstate = .make1a ∧ ∃ p ∈ s.parents t, f.parent = some p) :
    Inv g (waits.filter fun w => w.1 ≠ t) { s with
      status, asynccnt
      progress := update s.progress t .done
      stack := asked ++ (s.parents t).map (fun c => ⟨c, none, .make1b⟩) ++ rest } := by
  obtain ⟨hp, one, nothing, -⟩ := h.working (t := t) (by simp [top])
  have plain : s.progress t ≠ .semaphore := by rcases hp with hp | hp <;> simp [hp]
  have idle : work rest s.slots t = 0 := by simpa [top] using one
  obtain ⟨noSlot, noFrame⟩ := works_notMem idle
  have asks : ∀ f ∈ asked, f.curstate = .make1a := fun f hf => (hasked f hf).1
  have semaphore : ∀ {x}, update s.progress t .done x = .semaphore →
      x ≠ t ∧ s.progress x = .semaphore := by
    intro x hx
    by_cases same : x = t
    · subst same
      simp at hx
    · exact ⟨same, by simpa [Function.update_of_ne same] using hx⟩
  -- each parent has a token instead of its pair
  have sameOwed : ∀ t', owed g (waits.filter fun w => w.1 ≠ t)
      (asked ++ (s.parents t).map (fun c => ⟨c, none, .make1b⟩) ++ rest) s.parents t' =
      owed g waits s.stack s.parents t' := by
    intro t'
    have pairs : (s.parents t).count t' = waits.count (t, t') := by
      rw [h.waits]
      rcases hp with hp | hp <;> simp [hp]
    rw [owed_told asks, pairs, owed_done, top]
    simp
  refine
    { accounts := fun t' => ?_, waits := fun c' p' => ?_, anchored := ?_,
      command := fun f hf st hs => ?_, slots := fun t' ht' => ?_,
      semaphore := fun t' x hx => ?_, queue := fun x hx => h.queue x (semaphore hx).2,
      locks := fun x hx => ?_ }
  · dsimp only
    rw [sameOwed, work_told asks, opens_told asks]
    by_cases same : t' = t
    · subst same
      have before := h.accounts t'
      rcases hp with hp | hp <;> simp [hp, Accounts, top] at before ⊢ <;> omega
    · have before := h.accounts t'
      rw [count t', Function.update_of_ne same]
      split
      · next hx => simpa [h.semaphore t t' hx, Accounts, top, Ne.symm same] using before
      · simpa [top, Ne.symm same] using before
  · have here := h.waits c' p'
    by_cases same : c' = t
    · subst same
      have gone : (waits.filter fun w => w.1 ≠ c').count (c', p') = 0 :=
        List.count_eq_zero.mpr (by simp)
      rw [gone]
      simp
    · have kept : (waits.filter fun w => w.1 ≠ t).count (c', p') = waits.count (c', p') :=
        List.count_filter (by simpa using same)
      rw [kept, here]
      simp only [Function.update_of_ne same]
  · have anchored := h.anchored
    rw [top] at anchored
    rw [List.append_assoc]
    refine anchored_append (fun f hf p hp _ => ?_)
      (anchored_append (fun f hf p hp make1a => ?_) anchored.2)
    · obtain ⟨-, c, hc, parent⟩ := hasked f hf
      obtain rfl : c = p := by simpa [parent] using hp
      refine ⟨⟨c, none, .make1b⟩, List.mem_append_left _ (List.mem_map.mpr ⟨c, hc, rfl⟩), by simp⟩
    · obtain ⟨c, -, rfl⟩ := List.mem_map.mp hf
      cases make1a
  · rcases List.mem_append.mp hf with hf | hf
    · rcases List.mem_append.mp hf with hf | hf
      · simp [asks f hf] at hs
      · obtain ⟨c, -, rfl⟩ := List.mem_map.mp hf
        cases hs
    · have other : f.t ≠ t := fun same => noFrame f hf ⟨same, by simp [hs]⟩
      dsimp only
      rw [sameStatus _ other]
      exact h.command f (top ▸ List.mem_cons_of_mem _ hf) st hs
  · have other : t' ≠ t := by
      rintro rfl
      exact noSlot ht'
    dsimp only
    rw [sameStatus _ other]
    exact h.slots t' ht'
  · dsimp only
    rw [Function.update_of_ne (h.ne_semaphore plain hx)]
    exact h.semaphore t' x hx
  · obtain ⟨ne, hx⟩ := semaphore hx
    have works : ∀ t', work s.stack s.slots t' =
        work rest s.slots t' + if t = t' then 1 else 0 := by
      intro t'
      simp [top]
    dsimp only
    rw [count x]
    by_cases own : g.semaphore t = some x
    · rcases h.locks x hx with ⟨-, none⟩ | ⟨held, t', -, -, others⟩
      · exact absurd (none t own) (by simp [one])
      · -- the target is the one that holds the semaphore
        have holder : t = t' := by
          by_contra ne
          exact absurd (others t own ne) (by simp [one])
        refine .inl ⟨by simp [own, held], fun t'' ht'' => ?_⟩
        rw [work_told asks]
        by_cases same : t'' = t
        · rw [same, idle]
        · have none := others t'' ht'' (holder ▸ same)
          rw [works] at none
          omega
    · rw [if_neg own, sub_zero]
      apply (h.locks x hx).congr
      intro t' ht'
      have : t ≠ t' := by
        rintro rfl
        exact own ht'
      rw [work_told asks, works, if_neg this, Nat.add_zero]

/-! ### Turns -/

/-- The invariant does not speak of the other fields. -/
theorem Inv.congr (h : Inv g waits s) (progress : s'.progress = s.progress)
    (asynccnt : s'.asynccnt = s.asynccnt) (parents : s'.parents = s.parents)
    (cmds : s'.cmds = s.cmds) (status : s'.status = s.status) (stack : s'.stack = s.stack)
    (slots : s'.slots = s.slots) : Inv g waits s' where
  accounts := by rw [progress, asynccnt, parents, stack, slots]; exact h.accounts
  waits := by rw [progress, parents]; exact h.waits
  anchored := by rw [stack]; exact h.anchored
  command := by rw [cmds, status, stack]; exact h.command
  slots := by rw [cmds, status, slots]; exact h.slots
  semaphore := by rw [progress]; exact h.semaphore
  queue := by rw [progress, parents]; exact h.queue
  locks := by rw [progress, asynccnt, stack, slots]; exact h.locks

theorem make1a_inv {par : Option T} (h : Inv g waits s)
    (top : s.stack = ⟨c, par, .make1a⟩ :: rest) (calm : s.intr = false) :
    ∃ waits', Inv g waits' (s.make1a false ⟨c, par, .make1a⟩) := by
  have registered : ∃ waits', Inv g waits' (s.register c par) := by
    rcases register_eq s c par with ⟨-, same⟩ | ⟨p, rfl, hc, registered⟩
    · rw [same]
      exact ⟨waits, h⟩
    · have anchored := h.anchored
      rw [top] at anchored
      obtain ⟨f, hf, holds⟩ := anchored.1 rfl p rfl
      rw [registered]
      exact ⟨_, h.register (owed_pos (top ▸ List.mem_cons_of_mem _ hf) holds) hc⟩
  obtain ⟨waits', h'⟩ := registered
  obtain ⟨parents, asynccnt, same⟩ := register_same s c par
  have top' : (s.register c par).stack = ⟨c, par, .make1a⟩ :: rest := by rw [same]; exact top
  refine ⟨waits', ?_⟩
  rcases make1a_cases top calm with ⟨-, turn⟩ | ⟨fresh, turn⟩
  · rw [turn]
    exact h'.pass top'
  · rw [turn]
    have fresh' : (s.register c par).progress c = .init := by rw [same]; exact fresh
    refine (h'.expand top' fresh' (s.depends c ++ s.newIncludes c)).congr ?_ rfl rfl rfl rfl rfl rfl
    rw [same]

/-- A target whose last token is a state `make1b` has asked for all its dependencies. -/
theorem Inv.last {par : Option T} (h : Inv g waits s)
    (top : s.stack = ⟨t, par, .make1b⟩ :: rest) (one : s.asynccnt t = 1) :
    s.progress t = .active := by
  have owes : 1 ≤ owed g waits s.stack s.parents t :=
    owed_pos (top ▸ List.mem_cons_self) (holds_mk.mpr ⟨rfl, .inr rfl⟩)
  obtain ⟨before | before, -, count⟩ := h.waiting owes
  · have asks : opens rest t ≤ owed g waits rest s.parents t := opens_le
    have accounts := h.accounts t
    simp [before, Accounts, top] at accounts count
    omega
  · exact before

variable [DecidableEq A] [DecidableEq R] [DecidableEq N]

theorem make1b_inv {par : Option T} (h : Inv g waits s)
    (top : s.stack = ⟨t, par, .make1b⟩ :: rest)
    (turn : s.make1b g false ⟨t, par, .make1b⟩ = .ok s') : Inv g waits s' := by
  have owes : 1 ≤ owed g waits s.stack s.parents t :=
    owed_pos (top ▸ List.mem_cons_self) (holds_mk.mpr ⟨rfl, .inr rfl⟩)
  obtain ⟨before, -⟩ := h.waiting owes
  have plain : s.progress t ≠ .semaphore := by rcases before with hp | hp <;> simp [hp]
  have apart : ∀ x, g.semaphore t = some x → x ≠ t := fun x => h.ne_semaphore plain
  rcases make1b_cases top apart turn with
    ⟨more, rfl⟩ | ⟨-, x, own, -, rfl⟩ | ⟨one, free, started, stack⟩
  · exact h.drop top more
  · exact h.enqueue top own
  · have progress : s'.progress t = .active ∨ s'.progress t = .running := by
      rcases started.prepared with ⟨same, -⟩ | ⟨running, -⟩
      · exact .inl (same.trans (h.last top one))
      · exact .inr running
    refine (h.start top one free s'.progress s'.status s'.cmds s'.asynccnt progress
      started.progress started.status started.cmds ?_ ?_).congr rfl rfl started.parents rfl rfl
      stack started.slots
    · simp [started.asynccnt]
    · intro t' ne
      simp [started.asynccnt, ne]

omit [DecidableEq R] [DecidableEq N] in
theorem finish_inv {par : Option T} (h : Inv g waits s)
    (top : s.stack = ⟨t, par, .make1c⟩ :: rest) (turn : s.finish g t = .ok s') :
    Inv g (waits.filter fun w => w.1 ≠ t) s' := by
  obtain ⟨hp, -⟩ := h.working (t := t) (by simp [top])
  have plain : s.progress t ≠ .semaphore := by rcases hp with hp | hp <;> simp [hp]
  obtain ⟨asked, woken, finished, found, stack⟩ := finish_cases turn
  rw [top, List.tail_cons] at stack
  have hasked : ∀ f ∈ asked, f.curstate = .make1a ∧ ∃ p ∈ s.parents t, f.parent = some p := by
    intro f hf
    rcases found with ⟨rfl, -⟩ | ⟨-, inc, rfl⟩
    · cases hf
    · obtain ⟨c, hc, rfl⟩ := List.mem_map.mp hf
      exact ⟨rfl, c, hc, rfl⟩
  rcases finished.woken with ⟨rfl, parents, -⟩ | ⟨x, first, others, own, queue, parents, rfl⟩
  · refine (h.finish top s'.status s'.asynccnt asked finished.status finished.asynccnt
      hasked).congr finished.progress rfl parents finished.cmds rfl ?_ finished.slots
    rw [stack, List.append_nil]
  · have h' := h.wake top rfl (h.semaphore t x own) queue
    have same : update s.parents x others t = s.parents t :=
      Function.update_of_ne (Ne.symm (h.ne_semaphore plain own)) _ _
    refine (h'.finish rfl s'.status s'.asynccnt asked finished.status finished.asynccnt
      ?_).congr finished.progress rfl parents finished.cmds rfl ?_ finished.slots
    · dsimp only
      rwa [same]
    · dsimp only
      rw [stack, same, List.append_assoc, List.append_assoc, List.append_assoc]
      rfl

omit [DecidableEq R] [DecidableEq N] in
theorem make1c_inv {par : Option T} (h : Inv g waits s)
    (top : s.stack = ⟨t, par, .make1c⟩ :: rest)
    (turn : s.make1c g false ⟨t, par, .make1c⟩ = .ok s') : ∃ waits', Inv g waits' s' := by
  rcases make1c_cases top turn with
    ⟨some, ok, -, rfl⟩ | ⟨some, ok, -, -, log, rfl⟩ | ⟨-, turn⟩
  · exact ⟨waits, h.pretend top some ok⟩
  · exact ⟨waits, (h.launch top some ok).congr rfl rfl rfl rfl rfl rfl rfl⟩
  · exact ⟨_, finish_inv h top turn⟩

/-- **A turn of the loop** keeps the invariant, up to an interrupt. -/
theorem next_inv (h : Inv g waits s) (calm : s.intr = false) (turn : s.next g = .ok s') :
    ∃ waits', Inv g waits' s' := by
  unfold State.next at turn
  split at turn
  · rw [← Except.ok.inj turn]
    exact ⟨waits, h⟩
  · next f rest top =>
    obtain ⟨t, par, curstate⟩ := f
    simp only [calm, Bool.false_eq_true, if_false] at turn
    cases curstate with
    | make1a =>
      rw [← Except.ok.inj turn]
      exact make1a_inv h top calm
    | make1atail =>
      rw [← Except.ok.inj turn, make1atail_eq top]
      exact ⟨waits, h.tail top⟩
    | make1b => exact ⟨waits, make1b_inv h top turn⟩
    | make1c => exact make1c_inv h top turn
    | make1d status =>
      obtain ⟨cmd, others, log, intr, -, -, -, rfl⟩ := make1d_cases top turn
      exact ⟨waits, (h.ended top _ others).congr rfl rfl rfl rfl rfl rfl rfl⟩

/-! ### Runs -/

omit [DecidableEq A] [DecidableEq R] [DecidableEq N] in
theorem closures_inv {ended : List (T × Status)} (h : Inv g waits s)
    (runs : (ended.map Prod.fst).Subperm s.slots) : Inv g waits (ended.foldl State.closure s) := by
  induction ended generalizing s with
  | nil => exact h
  | cons e ended ih =>
    obtain ⟨t, status⟩ := e
    have ht : t ∈ s.slots := runs.subset (by simp)
    apply ih (h.closure ht)
    have : (t :: ended.map Prod.fst).Subperm (t :: s.slots.erase t) :=
      runs.trans (List.perm_cons_erase ht).subperm
    exact (List.subperm_cons t).mp this

omit [DecidableEq A] [DecidableEq R] [DecidableEq N] in
theorem closures_intr {ended : List (T × Status)} :
    (ended.foldl State.closure s).intr = s.intr := by
  induction ended generalizing s with
  | nil => rfl
  | cons e ended ih => exact ih

omit [DecidableEq A] [DecidableEq R] [DecidableEq N] in
theorem initial_inv (h : Initial g s) : Inv g [] s where
  accounts t := by
    have queue : queued g s.parents t = 0 := by
      unfold queued
      cases g.semaphore t <;> simp [h.parents]
    rcases h.progress t with hp | hp <;>
      simp [hp, Accounts, owed, work, opens, h.stack, h.slots, queue]
  waits c p := by simp [h.parents]
  anchored := by
    rw [h.stack]
    trivial
  command := by simp [h.stack]
  slots := by simp [h.slots]
  semaphore := h.semaphore
  queue := by simp [h.parents]
  locks x _ := .inl ⟨h.asynccnt x, by simp [work, h.stack, h.slots]⟩

/-- **The invariant holds in every state**, until an interrupt. -/
theorem Reachable.inv (h : Reachable g s) (calm : s.intr = false) : ∃ waits, Inv g waits s := by
  induction h with
  | start initial => exact ⟨[], initial_inv initial⟩
  | call goal _ empty _ ih =>
    obtain ⟨waits, h⟩ := ih calm
    exact ⟨waits, (h.goal empty goal).congr rfl rfl rfl rfl rfl rfl rfl⟩
  | step _ step ih =>
    cases step with
    | turn _ _ turn =>
      have before := next_intr turn calm
      obtain ⟨waits, h⟩ := ih before
      exact next_inv h before turn
    | wait _ _ runs =>
      obtain ⟨waits, h⟩ := ih (by rwa [closures_intr] at calm)
      exact ⟨waits, closures_inv h runs⟩

omit [DecidableEq A] [DecidableEq R] [DecidableEq N] in
/-- **A semaphore has one target at work, a target one command.** -/
theorem Inv.alone (inv : Inv g waits s) (ht : t ∈ s.slots) : s.slots.count t = 1 ∧
    ∀ t' ∈ s.slots, ∀ x, g.semaphore t = some x → g.semaphore t' = some x → t = t' := by
  have works : ∀ {t}, t ∈ s.slots → s.slots.count t = 1 ∧ work s.stack s.slots t = 1 := by
    intro t ht
    have some : 0 < s.slots.count t := List.count_pos_iff.mpr ht
    obtain ⟨-, one, -⟩ := inv.working (t := t) (by unfold work; omega)
    have := one
    unfold work at this
    exact ⟨by omega, one⟩
  refine ⟨(works ht).1, fun t' ht' x own own' => ?_⟩
  rcases inv.locks x (inv.semaphore t x own) with ⟨-, none⟩ | ⟨-, holder, -, -, others⟩
  · exact absurd (none t own) (by simp [(works ht).2])
  · have holds : ∀ {t}, t ∈ s.slots → g.semaphore t = some x → t = holder := by
      intro t ht own
      by_contra ne
      exact absurd (others t own ne) (by simp [(works ht).2])
    rw [holds ht own, holds ht' own']

end Make

end MapnikPackaging
