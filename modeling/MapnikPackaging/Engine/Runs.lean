/-
What whole runs of `make1` do.

A command is started by a state `make1c`, and such a state is only ever on top of the stack. After
an interrupt each state is popped before it is worked on, so what would go on is lost: states
`make1c` among them. No command is started any more, and those that run come to their end.

* `slots_alone` — at most one command for each target and for each semaphore, and at most as many as
  there may be jobs.
* `launch_ready` — what has been done when a command is started.
* `make1_done` — what has been done when `make1` comes to its end.
* `next_fails` — how the program can end before that.
-/

import MapnikPackaging.Engine.Waiting

namespace MapnikPackaging

namespace Make

open Function (update)
open Graphs Relation

variable {T A R N : Type} [DecidableEq T] {g : Graph T A R N} {s s' : State T A R N} {t c : T}
  {par : Option T} {f : Frame T} {rest : List (Frame T)}

/-! ### After an interrupt -/

section Halted

omit [DecidableEq T] in
@[simp] theorem goto_popped (s : State T A R N) (curstate : Curstate) :
    s.goto true curstate = s := by
  unfold State.goto
  split
  · contradiction
  · rfl

theorem make1a_popped (halted : s.intr = true) : (s.make1a true f).slots = s.slots ∧
    ((s.make1a true f).stack = s.stack ∨ (s.make1a true f).stack = s.stack.tail) := by
  obtain ⟨parents, asynccnt, same⟩ := register_same s f.t f.parent
  unfold State.make1a
  dsimp only
  rw [same]
  split
  · exact ⟨rfl, .inr rfl⟩
  · simp [State.push, halted]

variable [DecidableEq A] [DecidableEq R] [DecidableEq N]

theorem make1b_popped (h : s.make1b g true f = .ok s') : s'.slots = s.slots ∧
    (s'.stack = s.stack ∨ s'.stack = s.stack.tail) := by
  unfold State.make1b at h
  dsimp only at h
  split at h
  · rw [← Except.ok.inj h]
    exact ⟨rfl, .inr rfl⟩
  · split at h
    · rw [← Except.ok.inj h]
      exact ⟨rfl, .inr rfl⟩
    · obtain ⟨s₁, prepared, h⟩ := bind_ok h
      obtain ⟨failed, counts, log, -, -, -, same⟩ := inherit_skip
        { s with asynccnt := update s.asynccnt f.t (s.asynccnt f.t - 1) } g f.t
      obtain ⟨asynccnt, acquired⟩ := acquire_same s₁ g f.t
      rw [same] at prepared
      rw [← Except.ok.inj h, goto_popped, acquired]
      rcases prepare_cases prepared with rfl | ⟨-, -, rfl⟩ | ⟨-, cmds, running, rfl⟩ <;>
        exact ⟨rfl, .inl rfl⟩

omit [DecidableEq R] [DecidableEq N] in
/-- What a target that is done leaves on the stack. -/
theorem finish_popped (h : s.finish g t = .ok s') : s'.slots = s.slots ∧
    ∃ told, s'.stack = told ++ s.stack.tail ∧ ∀ f ∈ told, f.curstate ≠ .make1c := by
  obtain ⟨asked, woken, finished, found, stack⟩ := finish_cases h
  refine ⟨finished.slots, _, stack, ?_⟩
  intro f hf
  rcases List.mem_append.mp hf with hf | hf
  · rcases List.mem_append.mp hf with hf | hf
    · rcases found with ⟨rfl, -⟩ | ⟨-, inc, rfl⟩
      · cases hf
      · obtain ⟨c, -, rfl⟩ := List.mem_map.mp hf
        simp
    · obtain ⟨c, -, rfl⟩ := List.mem_map.mp hf
      simp
  · rcases finished.woken with ⟨rfl, -⟩ | ⟨x, first, others, -, -, -, rfl⟩
    · cases hf
    · rw [List.mem_singleton.mp hf]
      simp

/-- After an interrupt a turn takes states off the stack; only a target that is done leaves others
there. -/
theorem next_popped (halted : s.intr = true) (top : s.stack = f :: rest)
    (notOk : f.curstate = .make1c → s.status f.t ≠ .ok) (turn : s.next g = .ok s') :
    s'.slots = s.slots ∧ ∃ told below, s'.stack = told ++ below ∧ below <:+ rest ∧
      (told = [] ∨ f.curstate = .make1c) ∧ ∀ f ∈ told, f.curstate ≠ .make1c := by
  have popped : ∀ {s' : State T A R N}, s'.stack = s.pop.stack ∨ s'.stack = s.pop.stack.tail →
      ∃ told below, s'.stack = told ++ below ∧ below <:+ rest ∧
        (told = [] ∨ f.curstate = .make1c) ∧ ∀ f ∈ told, f.curstate ≠ .make1c := by
    intro s' stack
    have here : s.pop.stack = rest := by rw [State.pop, top, List.tail_cons]
    rw [here] at stack
    refine ⟨[], s'.stack, rfl, ?_, .inl rfl, by simp⟩
    rcases stack with stack | stack
    · exact stack ▸ List.suffix_rfl
    · exact stack ▸ List.tail_suffix rest
  unfold State.next at turn
  rw [top] at turn
  simp only [halted, if_true] at turn
  split at turn
  · obtain ⟨slots, stack⟩ := make1a_popped (f := f) (s := s.pop) halted
    rw [← Except.ok.inj turn]
    exact ⟨slots, popped stack⟩
  · rw [← Except.ok.inj turn, State.make1atail, goto_popped]
    exact ⟨rfl, popped (.inl rfl)⟩
  · obtain ⟨slots, stack⟩ := make1b_popped turn
    exact ⟨slots, popped stack⟩
  · next make1c =>
    unfold State.make1c at turn
    split at turn
    · next ok => exact absurd ok (notOk make1c)
    · obtain ⟨slots, told, stack, notMake1c⟩ := finish_popped turn
      refine ⟨slots, told, _, stack, ?_, .inr make1c, notMake1c⟩
      rw [State.pop, top, List.tail_cons]
      exact List.tail_suffix rest
  · unfold State.make1d at turn
    dsimp only at turn
    split at turn
    · cases turn
    · rw [← Except.ok.inj turn, goto_popped]
      exact ⟨rfl, popped (.inl rfl)⟩

end Halted

/-! ### Before an interrupt -/

section Calm

variable [DecidableEq A] [DecidableEq R] [DecidableEq N] {waits : List (T × T)}

/-- Before an interrupt a turn starts a command, or leaves the slots as they are; and it leaves at
most one state `make1c`, on top. -/
theorem next_calm (inv : Inv g waits s) (calm : s.intr = false) (top : s.stack = f :: rest)
    (turn : s.next g = .ok s') :
    (s'.intr = false ∧ s'.slots = s.slots ++ [f.t] ∧ f.curstate = .make1c ∧ s.status f.t = .ok ∧
      s'.stack = rest) ∨
    (s'.slots = s.slots ∧ ∃ new, s'.stack = new ++ rest ∧
      ((∀ f' ∈ new, f'.curstate ≠ .make1c) ∨
        new = [⟨f.t, f.parent, .make1c⟩] ∧ (s'.intr = true → s'.status f.t ≠ .ok))) := by
  obtain ⟨t, par, curstate⟩ := f
  unfold State.next at turn
  rw [top] at turn
  simp only [calm, Bool.false_eq_true, if_false] at turn
  cases curstate with
  | make1a =>
    refine .inr ?_
    obtain ⟨parents, asynccnt, same⟩ := register_same s t par
    rw [← Except.ok.inj turn]
    rcases make1a_cases top calm with ⟨-, turn⟩ | ⟨-, turn⟩ <;> rw [turn, same]
    · exact ⟨rfl, [], rfl, .inl (by simp)⟩
    · refine ⟨rfl, _ ++ [⟨t, par, .make1atail⟩], List.append_cons _ _ _, .inl ?_⟩
      intro f' hf'
      rcases List.mem_append.mp hf' with hf' | hf'
      · obtain ⟨d, -, rfl⟩ := List.mem_map.mp hf'
        simp
      · rw [List.mem_singleton.mp hf']
        simp
  | make1atail =>
    rw [← Except.ok.inj turn, make1atail_eq top]
    exact .inr ⟨rfl, [⟨t, par, .make1b⟩], rfl, .inl (by simp)⟩
  | make1b =>
    refine .inr ?_
    have owes : 1 ≤ owed g waits s.stack s.parents t :=
      owed_pos (top ▸ List.mem_cons_self) (holds_mk.mpr ⟨rfl, .inr rfl⟩)
    obtain ⟨hp, -⟩ := inv.waiting owes
    have apart : ∀ x, g.semaphore t = some x → x ≠ t := fun x =>
      inv.ne_semaphore (by rcases hp with hp | hp <;> simp [hp])
    rcases make1b_cases top apart turn with
      ⟨-, rfl⟩ | ⟨-, x, -, -, rfl⟩ | ⟨-, -, started, stack⟩
    · exact ⟨rfl, [], rfl, .inl (by simp)⟩
    · exact ⟨rfl, [], rfl, .inl (by simp)⟩
    · refine ⟨started.slots, [⟨t, par, .make1c⟩], stack, .inr ⟨rfl, ?_⟩⟩
      simp [started.intr, calm]
  | make1c =>
    rcases make1c_cases top turn with ⟨-, -, -, rfl⟩ | ⟨-, ok, -, -, log, rfl⟩ | ⟨-, turn⟩
    · exact .inr ⟨rfl, [⟨t, par, .make1d .ok⟩], rfl, .inl (by simp)⟩
    · exact .inl ⟨calm, rfl, rfl, ok, rfl⟩
    · obtain ⟨slots, told, stack, notMake1c⟩ := finish_popped turn
      rw [top, List.tail_cons] at stack
      exact .inr ⟨slots, told, stack, .inl notMake1c⟩
  | make1d status =>
    obtain ⟨cmd, others, log, intr, -, -, notOk, rfl⟩ := make1d_cases top turn
    refine .inr ⟨rfl, [⟨t, par, .make1c⟩], rfl, .inr ⟨rfl, fun halted => ?_⟩⟩
    dsimp only
    rw [Function.update_self]
    exact notOk calm halted

end Calm

/-! ### Pace -/

/-- Commands have ended. -/
theorem closures_eq {ended : List (T × Status)}
    (runs : (ended.map Prod.fst).Subperm s.slots) : ∃ new slots,
      ended.foldl State.closure s = { s with stack := new ++ s.stack, slots } ∧
        (∀ f ∈ new, ∃ status, f.curstate = .make1d status) ∧ new.length = ended.length ∧
        slots.Sublist s.slots ∧ slots.length + ended.length = s.slots.length := by
  induction ended generalizing s with
  | nil => exact ⟨[], s.slots, rfl, by simp, rfl, List.Sublist.refl _, rfl⟩
  | cons e ended ih =>
    obtain ⟨t, status⟩ := e
    have ht : t ∈ s.slots := runs.subset (by simp)
    have others : (ended.map Prod.fst).Subperm (s.closure (t, status)).slots := by
      have : (t :: ended.map Prod.fst).Subperm (t :: s.slots.erase t) :=
        runs.trans (List.perm_cons_erase ht).subperm
      exact (List.subperm_cons t).mp this
    obtain ⟨new, slots, same, make1d, length, sub, count⟩ := ih others
    refine ⟨new ++ [⟨t, none, .make1d status⟩], slots, ?_, ?_, by simp [length],
      sub.trans List.erase_sublist, ?_⟩
    · rw [List.foldl_cons, same]
      simp [State.closure]
    · intro f hf
      rcases List.mem_append.mp hf with hf | hf
      · exact make1d f hf
      · exact ⟨status, by rw [List.mem_singleton.mp hf]⟩
    · have : (s.slots.erase t).length + 1 = s.slots.length :=
        (List.length_erase_of_mem ht).symm ▸ Nat.sub_add_cancel (List.length_pos_of_mem ht)
      simp only [State.closure] at count
      rw [List.length_cons]
      omega

/-- A state `make1c` is on top, and there is a slot for its command. After an interrupt it has no
command to start. -/
structure Paced (g : Graph T A R N) (s : State T A R N) : Prop where
  single : ∀ f ∈ s.stack.tail, f.curstate ≠ .make1c
  room : ∀ f ∈ s.stack, f.curstate = .make1c → s.slots = [] ∨ s.slots.length < g.limit
  halted : s.intr = true → ∀ f ∈ s.stack, f.curstate = .make1c → s.status f.t ≠ .ok
  full : s.slots.length ≤ max 1 g.limit

omit [DecidableEq T] in
theorem Paced.of_none (none : ∀ f ∈ s.stack, f.curstate ≠ .make1c)
    (full : s.slots.length ≤ max 1 g.limit) : Paced g s where
  single f hf := none f (List.mem_of_mem_tail hf)
  room f hf here := absurd here (none f hf)
  halted _ f hf here := absurd here (none f hf)
  full := full

variable [DecidableEq A] [DecidableEq R] [DecidableEq N]

theorem next_paced (h : Paced g s) (inv : s.intr = false → ∃ waits, Inv g waits s)
    (some : s.stack ≠ []) (room : s.slots = [] ∨ s.slots.length < g.limit)
    (turn : s.next g = .ok s') : Paced g s' := by
  obtain ⟨f, rest, top⟩ := List.exists_cons_of_ne_nil some
  have below : ∀ f ∈ rest, f.curstate ≠ .make1c := by simpa [top] using h.single
  by_cases halted : s.intr = true
  · obtain ⟨slots, told, below', stack, suffix, -, notMake1c⟩ :=
      next_popped halted top (h.halted halted f (top ▸ List.mem_cons_self)) turn
    refine .of_none (fun f' hf' => ?_) (slots ▸ h.full)
    rcases List.mem_append.mp (stack ▸ hf') with hf' | hf'
    · exact notMake1c f' hf'
    · exact below f' (suffix.subset hf')
  · have calm : s.intr = false := by simpa using halted
    obtain ⟨waits, inv⟩ := inv calm
    rcases next_calm inv calm top turn with
      ⟨-, slots, -, -, stack⟩ | ⟨slots, new, stack, notMake1c | ⟨rfl, halted⟩⟩
    · refine .of_none (stack ▸ below) ?_
      rw [slots, List.length_append, List.length_singleton]
      rcases room with room | room
      · simp [room]
      · exact le_max_of_le_right room
    · refine .of_none (fun f' hf' => ?_) (slots ▸ h.full)
      rcases List.mem_append.mp (stack ▸ hf') with hf' | hf'
      · exact notMake1c f' hf'
      · exact below f' hf'
    · refine
        { single := ?_, room := fun _ _ _ => slots ▸ room, halted := fun halt f' hf' here => ?_,
          full := slots ▸ h.full }
      · rw [stack]
        exact below
      · rcases List.mem_cons.mp (stack ▸ hf') with rfl | hf'
        · exact halted halt
        · exact absurd here (below f' hf')

theorem Reachable.paced (h : Reachable g s) : Paced g s := by
  induction h with
  | start initial => exact .of_none (by simp [initial.stack]) (by simp [initial.slots])
  | call goal _ _ idle _ => exact .of_none (by simp [State.call]) (by simp [State.call, idle])
  | step before step ih =>
    cases step with
    | turn some room turn => exact next_paced ih before.inv some room turn
    | wait ended busy runs =>
      obtain ⟨new, slots, same, make1d, -, sub, count⟩ := closures_eq runs
      rw [same]
      refine .of_none (fun f hf => ?_) (sub.length_le.trans ih.full)
      rcases List.mem_append.mp hf with hf | hf
      · obtain ⟨status, hs⟩ := make1d f hf
        simp [hs]
      · -- a state `make1c` has room for a command: there is no need to wait
        intro here
        rcases busy with empty | busy
        · simp [empty] at hf
        · rcases ih.room f hf here with idle | room
          · rw [idle, List.length_nil] at count
            exact ended (List.length_eq_zero_iff.mp (by omega))
          · omega

/-! ### Commands -/

/-- A command is started by a target at work, before any interrupt. -/
theorem Reachable.started (h : Reachable g s) (step : Step g s s')
    (started : s'.slots = s.slots ++ [t]) :
    s.intr = false ∧ s.status t = .ok ∧ 1 ≤ work s.stack s.slots t := by
  have differ : s'.slots ≠ s.slots := by simp [started]
  cases step with
  | turn some _ turn =>
    obtain ⟨f, rest, top⟩ := List.exists_cons_of_ne_nil some
    by_cases halted : s.intr = true
    · exact absurd (next_popped halted top
        (h.paced.halted halted f (top ▸ List.mem_cons_self)) turn).1 differ
    · have calm : s.intr = false := by simpa using halted
      obtain ⟨waits, inv⟩ := h.inv calm
      rcases next_calm inv calm top turn with ⟨-, slots, here, ok, -⟩ | ⟨slots, -⟩
      · obtain rfl : f.t = t := by simpa [started, eq_comm] using slots
        refine ⟨calm, ok, ?_⟩
        have works : Frame.Works f.t f := ⟨rfl, by simp [here]⟩
        rw [top, work_cons, if_pos works]
        omega
      · exact absurd slots differ
  | wait ended _ runs =>
    obtain ⟨new, slots, same, -, -, -, count⟩ := closures_eq runs
    rw [same] at started
    have started : slots.length = s.slots.length + 1 := by
      rw [show slots = s.slots ++ [t] from started, List.length_append, List.length_singleton]
    omega

/-- **A command is started only when the dependencies of its target are done**, and fine unless they
are not cared for. What depends on the target itself is not waited for. -/
theorem launch_ready (plain : ∀ t, g.headers t = none) (h : Reachable g s) (step : Step g s s')
    (started : s'.slots = s.slots ++ [t]) : s.intr = false ∧ ∀ c ∈ s.depends t,
      (s.progress c = .done ∧ (g.nocare c = true ∨ s.status c = .ok)) ∨
        s.progress c = .semaphore ∨ (s.progress c ≠ .init ∧ TransGen (Dep s.depends) c t) := by
  obtain ⟨calm, ok, works⟩ := h.started step started
  obtain ⟨waits, order, inv, ordered⟩ := h.ordered plain calm
  refine ⟨calm, fun c hc => ?_⟩
  exact (ordered.ready t (.inl works) c hc).imp_left fun done => ⟨done.1, done.2 ok⟩

theorem launch_ready_pair : (pairAfter 11).intr = false ∧ ∀ c ∈ (pairAfter 11).depends true,
    ((pairAfter 11).progress c = .done ∧
        (pair.nocare c = true ∨ (pairAfter 11).status c = .ok)) ∨
      (pairAfter 11).progress c = .semaphore ∨ ((pairAfter 11).progress c ≠ .init ∧
        TransGen (Dep (pairAfter 11).depends) c true) :=
  launch_ready (fun _ => rfl) (pairAfter_reachable 11 rfl)
    (.turn (by decide) (by decide) rfl : Step pair (pairAfter 11) (pairAfter 12)) rfl

/-- No two commands of a target or of a semaphore. -/
def Alone (g : Graph T A R N) (slots : List T) : Prop :=
  slots.Nodup ∧ ∀ t ∈ slots, ∀ t' ∈ slots, ∀ x,
    g.semaphore t = some x → g.semaphore t' = some x → t = t'

omit [DecidableEq A] [DecidableEq R] [DecidableEq N] in
theorem Inv.stand_alone {waits : List (T × T)} (inv : Inv g waits s) : Alone g s.slots :=
  ⟨List.nodup_iff_count_eq_one.mpr fun _ ht => (inv.alone ht).1,
    fun _ ht t' ht' => (inv.alone ht).2 t' ht'⟩

/-- **At any time** each target has one command that runs, and so has each semaphore; and there are
no more commands than jobs. -/
theorem slots_alone (jobs : 1 ≤ g.jobs) (h : Reachable g s) :
    s.slots.length ≤ min g.jobs 64 ∧ Alone g s.slots := by
  have limit : 1 ≤ g.limit := le_min jobs (by omega)
  refine ⟨(h.paced.full).trans (max_le limit le_rfl), ?_⟩
  induction h with
  | start initial => simp [Alone, initial.slots]
  | call _ _ _ _ ih => exact ih
  | @step s s' before step ih =>
    cases step with
    | turn some _ turn =>
      obtain ⟨f, rest, top⟩ := List.exists_cons_of_ne_nil some
      by_cases halted : s.intr = true
      · rw [(next_popped halted top
          (before.paced.halted halted f (top ▸ List.mem_cons_self)) turn).1]
        exact ih
      · have calm : s.intr = false := by simpa using halted
        obtain ⟨waits, inv⟩ := before.inv calm
        obtain ⟨waits', inv'⟩ := next_inv inv calm turn
        exact inv'.stand_alone
    | wait _ _ runs =>
      obtain ⟨new, slots, same, -, -, sub, -⟩ := closures_eq runs
      rw [same]
      refine ⟨sub.nodup ih.1, fun t ht t' ht' => ?_⟩
      exact ih.2 t (sub.subset ht) t' (sub.subset ht')

theorem slots_alone_pair : (pairAfter 6).slots = [] ∧ (pairAfter 5).slots = [false] ∧
    (pairAfter 5).slots.length ≤ min 1 64 ∧ Alone pair (pairAfter 5).slots :=
  ⟨rfl, rfl, slots_alone (by decide) (pairAfter_reachable 5 rfl)⟩

/-! ### A goal -/

/-- Before an interrupt no target goes back to the start, and who is asked for leaves it. -/
theorem next_init {waits : List (T × T)} (inv : Inv g waits s) (calm : s.intr = false)
    (top : s.stack = f :: rest) (turn : s.next g = .ok s')
    (ht : s.progress t ≠ .init ∨ (f.curstate = .make1a ∧ f.t = t)) : s'.progress t ≠ .init := by
  obtain ⟨t', par, curstate⟩ := f
  have update : ∀ {q : Progress}, q ≠ .init → s.progress t ≠ .init →
      update s.progress t' q t ≠ .init := by
    intro q hq old
    by_cases same : t = t' <;> simp [same, hq, old]
  unfold State.next at turn
  rw [top] at turn
  simp only [calm, Bool.false_eq_true, if_false] at turn
  cases curstate with
  | make1a =>
    obtain ⟨parents, asynccnt, same⟩ := register_same s t' par
    rw [← Except.ok.inj turn]
    rcases make1a_cases top calm with ⟨old, turn⟩ | ⟨-, turn⟩ <;> rw [turn, same]
    · rcases ht with ht | ⟨-, rfl⟩
      · exact ht
      · exact old
    · rcases ht with ht | ⟨-, rfl⟩
      · exact update (by simp) ht
      · simp
  | make1atail =>
    have old : s.progress t ≠ .init := by simpa using ht
    rw [← Except.ok.inj turn, make1atail_eq top]
    exact update (by simp) old
  | make1b =>
    have old : s.progress t ≠ .init := by simpa using ht
    have owes : 1 ≤ owed g waits s.stack s.parents t' :=
      owed_pos (top ▸ List.mem_cons_self) (holds_mk.mpr ⟨rfl, .inr rfl⟩)
    obtain ⟨hp, -⟩ := inv.waiting owes
    have apart : ∀ x, g.semaphore t' = some x → x ≠ t' := fun x =>
      inv.ne_semaphore (by rcases hp with hp | hp <;> simp [hp])
    rcases make1b_cases top apart turn with ⟨-, rfl⟩ | ⟨-, x, -, -, rfl⟩ | ⟨-, -, started, -⟩
    · exact old
    · exact old
    · by_cases same : t = t'
      · subst same
        rcases started.prepared with ⟨same, -⟩ | ⟨running, -⟩
        · rwa [same]
        · simp [running]
      · rwa [started.progress t same]
  | make1c =>
    have old : s.progress t ≠ .init := by simpa using ht
    rcases make1c_cases top turn with ⟨-, -, -, rfl⟩ | ⟨-, -, -, -, log, rfl⟩ | ⟨-, turn⟩
    · exact old
    · exact old
    · obtain ⟨asked, woken, finished, -⟩ := finish_cases turn
      rw [finished.progress]
      exact update (by simp) old
  | make1d status =>
    have old : s.progress t ≠ .init := by simpa using ht
    obtain ⟨cmd, others, log, intr, -, -, -, rfl⟩ := make1d_cases top turn
    exact old

/-- The goal of a run is asked for, or has been. -/
theorem goal_asked {goal : T} (h : Reachable g (s.call goal))
    (run : ReflTransGen (Step g) (s.call goal) s') (calm : s'.intr = false) :
    Reachable g s' ∧ (⟨goal, none, .make1a⟩ ∈ s'.stack ∨ s'.progress goal ≠ .init) := by
  induction run with
  | refl => exact ⟨h, .inl (by simp [State.call])⟩
  | tail _ step ih =>
    cases step with
    | turn some room turn =>
      have before := next_intr turn calm
      obtain ⟨reached, asked⟩ := ih before
      refine ⟨reached.step (.turn some room turn), ?_⟩
      obtain ⟨f, rest, top⟩ := List.exists_cons_of_ne_nil some
      obtain ⟨waits, inv⟩ := reached.inv before
      rcases asked with asked | old
      · rcases List.mem_cons.mp (top ▸ asked) with rfl | asked
        · exact .inr (next_init inv before top turn (.inr ⟨rfl, rfl⟩))
        · refine .inl ?_
          rcases next_calm inv before top turn with ⟨-, -, -, -, stack⟩ | ⟨-, new, stack, -⟩
          · exact stack ▸ asked
          · exact stack ▸ List.mem_append_right _ asked
      · exact .inr (next_init inv before top turn (.inl old))
    | wait ended busy runs =>
      obtain ⟨reached, asked⟩ := ih (by rwa [closures_intr] at calm)
      refine ⟨reached.step (.wait ended busy runs), ?_⟩
      obtain ⟨new, slots, same, -⟩ := closures_eq runs
      rw [same]
      exact asked.imp_left (List.mem_append_right _)

/-- **When `make1` comes to its end the goal is done**, and all that it depends on, directly or
not. -/
theorem make1_done {goal : T} (plain : ∀ t, g.headers t = none) (h : Reachable g s)
    (empty : s.stack = []) (idle : s.slots = []) (run : ReflTransGen (Step g) (s.call goal) s')
    (ended : s'.stack = [] ∧ s'.slots = []) (calm : s'.intr = false)
    (path : ReflTransGen (fun a b => s'.progress a ≠ .semaphore ∧ b ∈ s'.depends a) goal t) :
    s'.progress t = .done ∨ s'.progress t = .semaphore := by
  obtain ⟨reached, asked⟩ := goal_asked (h.call goal empty idle) run calm
  have done : ∀ t, s'.progress t ≠ .init → s'.progress t = .done ∨ s'.progress t = .semaphore := by
    intro t old
    by_cases isTarget : s'.progress t = .semaphore
    · exact .inr isTarget
    · exact .inl (all_done plain reached calm ended.1 ended.2 old isTarget).1
  induction path with
  | refl => exact done goal (asked.resolve_left (by simp [ended.1]))
  | @tail a b _ edge ih =>
    have here : s'.progress a = .done := ih.resolve_right edge.1
    exact (all_done plain reached calm ended.1 ended.2 (by simp [here]) edge.1).2 b edge.2

theorem make1_done_pair :
    (pairAfter 15).progress false = .done ∨ (pairAfter 15).progress false = .semaphore :=
  make1_done (fun _ => rfl) (.start (pairStart_initial fun _ => rfl)) rfl rfl (pairAfter_run 15 rfl)
    ⟨rfl, rfl⟩ rfl (.tail .refl ⟨by decide, by decide⟩)

/-! ### Failures of the program -/

section Fails

variable {e : Halt}

omit [DecidableEq T] [DecidableEq A] [DecidableEq R] [DecidableEq N] in
/-- What fails does so in its first part or later. -/
theorem bind_error {ε α β : Type} {first : Except ε α} {next : α → Except ε β} {e : ε}
    (h : first >>= next = .error e) :
    first = .error e ∨ ∃ a, first = .ok a ∧ next a = .error e := by
  cases first with
  | error e' => exact .inl (congrArg Except.error (Except.error.inj h))
  | ok a => exact .inr ⟨a, rfl, h⟩

theorem prepare_fails (h : s.prepare g t = .error e) :
    (e = .badFate ∧ (g.fate t = .init ∨ g.fate t = .making)) ∨
      (e = .tooLong ∧ make1cmds g (g.actions t) s.running = none) := by
  unfold State.prepare at h
  split at h
  · cases h
  · split at h
    all_goals first
      | (simp only [reduceCtorEq] at h; done)
      | skip
    case h_12 fate => exact .inl ⟨(Except.error.inj h).symm, .inl fate⟩
    case h_13 fate => exact .inl ⟨(Except.error.inj h).symm, .inr fate⟩
    all_goals
      split at h
      · cases h
      · split at h
        · next tooLong => exact .inr ⟨(Except.error.inj h).symm, tooLong⟩
        · cases h

theorem make1b_fails (h : s.make1b g false f = .error e) :
    (e = .badFate ∧ ∃ t, g.fate t = .init ∨ g.fate t = .making) ∨
      (e = .tooLong ∧ ∃ t, ∃ a ∈ g.actions t, g.TooLong a) := by
  unfold State.make1b at h
  dsimp only at h
  split at h
  · cases h
  · split at h
    · cases h
    · rcases bind_error h with prepared | ⟨s₁, -, h⟩
      · obtain ⟨failed, counts, log, -, -, -, same⟩ := inherit_skip
          { s with asynccnt := update s.asynccnt f.t (s.asynccnt f.t - 1) } g f.t
        rw [same] at prepared
        rcases prepare_fails prepared with ⟨rfl, fate⟩ | ⟨rfl, tooLong⟩
        · exact .inl ⟨rfl, f.t, fate⟩
        · exact .inr ⟨rfl, f.t, make1cmds_none tooLong⟩
      · cases h

omit [DecidableEq R] [DecidableEq N] in
theorem finish_fails (h : s.finish g t = .error e) :
    (e = .noParents ∧ ∃ r inc, g.headers r = some inc ∧ s.parents r = []) ∨
      (e = .semaphoreBusy ∧ ∃ x, g.semaphore t = some x ∧ s.asynccnt x ≠ 1) := by
  obtain ⟨counts, tallied, -⟩ := tally_same (s.settle g t) t
  unfold State.finish at h
  dsimp only at h
  rw [tallied] at h
  rcases bind_error h with rescan | ⟨⟨additional, s₁⟩, rescanned, h⟩
  · unfold State.rescan at rescan
    split at rescan
    · dsimp only at rescan
      generalize (if g.internal t then g.originalTarget t else t) = r at rescan
      split at rescan
      · cases rescan
      · next inc found =>
        split at rescan
        · next none => exact .inl ⟨(Except.error.inj rescan).symm, r, inc, found, none⟩
        · cases rescan
    · cases rescan
  · obtain ⟨depends, includes, rescanned, rfl, -⟩ := rescan_cases rescanned
    rcases bind_error h with release | ⟨a, -, h⟩
    · unfold State.release at release
      split at release
      · cases release
      · next x own =>
        split at release
        · next busy => exact .inr ⟨(Except.error.inj release).symm, x, own, busy⟩
        · dsimp only at release
          split at release <;> cases release
    · cases h

/-- **How `make1` can fail before an interrupt**: for a fate that `make0` has not settled, for a
command that is too long, or for included files of a target that nobody asks for. Its assertions
hold: there is a slot for each command, a semaphore is not freed twice, and a command that ends is
one of its target. -/
theorem next_fails (h : Reachable g s) (calm : s.intr = false)
    (room : s.slots = [] ∨ s.slots.length < g.limit) (turn : s.next g = .error e) :
    (e = .badFate ∧ ∃ t, g.fate t = .init ∨ g.fate t = .making) ∨
      (e = .tooLong ∧ ∃ t, ∃ a ∈ g.actions t, g.TooLong a) ∨
      (e = .noParents ∧ ∃ r inc, g.headers r = some inc ∧ s.parents r = []) := by
  obtain ⟨waits, inv⟩ := h.inv calm
  unfold State.next at turn
  split at turn
  · cases turn
  · next f rest top =>
    obtain ⟨t, par, curstate⟩ := f
    simp only [calm, Bool.false_eq_true, if_false] at turn
    cases curstate with
    | make1a => cases turn
    | make1atail => cases turn
    | make1b =>
      rcases make1b_fails turn with fate | tooLong
      · exact .inl fate
      · exact .inr (.inl tooLong)
    | make1c =>
      replace turn : s.make1c g false ⟨t, par, .make1c⟩ = .error e := turn
      unfold State.make1c at turn
      split at turn
      · split at turn
        · cases turn
        · -- `exec_cmd` finds a slot
          have free : s.pop.slots.length < 64 := by
            rcases room with idle | room
            · simp [State.pop, idle]
            · exact room.trans_le (min_le_right g.jobs 64)
          unfold State.execCmd at turn
          rw [if_pos free] at turn
          cases turn
      · rcases finish_fails turn with noParents | ⟨-, x, own, busy⟩
        · exact .inr (.inr noParents)
        · -- the semaphore is held by the target that frees it
          obtain ⟨-, works, -⟩ := inv.working (t := t) (by simp [top])
          rcases inv.locks x (inv.semaphore t x own) with ⟨-, none⟩ | ⟨one, -⟩
          · exact absurd (none t own) (by simp [works])
          · exact absurd one busy
    | make1d status =>
      have command := (inv.command ⟨t, par, .make1d status⟩ (top ▸ List.mem_cons_self) status rfl).1
      replace turn : s.make1d g false ⟨t, par, .make1d status⟩ status = .error e := turn
      unfold State.make1d at turn
      dsimp only at turn
      split at turn
      · next none => exact absurd none command
      · cases turn

/-- The pair, when `make0` is not through with it. -/
def unsettled : Graph Bool Bool Unit Bool := { pair with fate := fun _ => .making }

def unsettledAfter : State Bool Bool Unit Bool :=
  ((pairStart.call false).play unsettled [.turn, .turn]).getD pairStart

theorem next_fails_unsettled : ∃ t, unsettled.fate t = .init ∨ unsettled.fate t = .making := by
  have run : (pairStart.call false).play unsettled [.turn, .turn] = some unsettledAfter := rfl
  have reached : Reachable unsettled unsettledAfter :=
    ((Reachable.start (pairStart_initial fun _ => rfl)).call false rfl rfl).run (play_run run)
  have fails : unsettledAfter.next unsettled = .error .badFate := rfl
  rcases next_fails reached rfl (.inl rfl) fails with ⟨-, fate⟩ | ⟨tooLong, -⟩ | ⟨noParents, -⟩
  · exact fate
  · cases tooLong
  · cases noParents

end Fails

end Make

end MapnikPackaging
