/-
What `make1` reports.

It counts the targets it has commands for, and those of them that have been made; when the numbers
differ it reports a failure. Failures spread: from a command to its target, from there to all that
depend on it, and to all targets that share an action with it.

* `Tallied` — the counts, and what a status other than `ok` goes back to.
* `tally_closed` — at the end each target that was counted has been made or has failed.
* `make_succeeds` — when no failure is reported, there was none, and no interrupt.
-/

import MapnikPackaging.Engine.Runs

namespace MapnikPackaging

namespace Make

open Function (update)

variable {T A R N : Type} {g : Graph T A R N} {s s' : State T A R N} {t c : T}
  {par : Option T} {f : Frame T} {rest : List (Frame T)} {waits : List (T × T)}
  {counted : List T}

/-! ### The tally -/

/-- A failure is reported, or will be. -/
def Blamed (g : Graph T A R N) (s : State T A R N) : Prop :=
  (∃ t, g.fate t = .cantfind ∨ g.fate t = .cantmake) ∨ s.result = true ∨ 0 < s.counts.failed ∨
    ∃ t, s.progress t = .running ∧ s.status t ≠ .ok

/-- The counts, with a list of the targets that are running. -/
structure Tallied (g : Graph T A R N) (counted : List T) (s : State T A R N) : Prop where
  nodup : counted.Nodup
  running : ∀ t, t ∈ counted ↔ s.progress t = .running
  total : s.counts.total = s.counts.made + s.counts.failed + counted.length
  status : ∀ t, s.status t ≠ .intr
  outcome : ∀ a, s.outcome a ≠ .intr
  cmds : ∀ t, s.cmds t ≠ [] → s.progress t = .running ∨ s.progress t = .done
  spent : ∀ t, s.progress t = .done → s.status t = .ok → s.cmds t = []
  blame : ∀ t, s.status t ≠ .ok → Blamed g s
  share : ∀ a, s.outcome a ≠ .ok → Blamed g s

/-- Nothing that is counted changes. -/
structure Quiet (s s' : State T A R N) : Prop where
  running : ∀ t, s'.progress t = .running ↔ s.progress t = .running
  done : ∀ t, s'.progress t = .done ↔ s.progress t = .done
  status : s'.status = s.status
  outcome : s'.outcome = s.outcome
  cmds : s'.cmds = s.cmds
  counts : s'.counts = s.counts
  result : s'.result = s.result

theorem Tallied.quiet (h : Tallied g counted s) (quiet : Quiet s s') : Tallied g counted s' := by
  have blamed : Blamed g s → Blamed g s' := by
    simp only [Blamed, quiet.running, quiet.status, quiet.counts, quiet.result]
    exact id
  exact
    { nodup := h.nodup
      running := fun t => (h.running t).trans (quiet.running t).symm
      total := quiet.counts ▸ h.total
      status := quiet.status ▸ h.status
      outcome := quiet.outcome ▸ h.outcome
      cmds := fun t => by
        rw [quiet.cmds, quiet.running, quiet.done]
        exact h.cmds t
      spent := fun t => by
        rw [quiet.done, quiet.status, quiet.cmds]
        exact h.spent t
      blame := fun t bad => blamed (h.blame t (quiet.status ▸ bad))
      share := fun a bad => blamed (h.share a (quiet.outcome ▸ bad)) }

/-! ### Turns -/

section Turns

variable [DecidableEq T]

/-- A step of a target from one point of its progress to another, neither of which is counted. -/
theorem Quiet.progress {q : Progress} (old : s.progress t ≠ .running ∧ s.progress t ≠ .done)
    (new : q ≠ .running ∧ q ≠ .done) (progress : s'.progress = update s.progress t q)
    (status : s'.status = s.status) (outcome : s'.outcome = s.outcome) (cmds : s'.cmds = s.cmds)
    (counts : s'.counts = s.counts) (result : s'.result = s.result) : Quiet s s' := by
  have same : ∀ {r : Progress}, s.progress t ≠ r → q ≠ r → ∀ t',
      s'.progress t' = r ↔ s.progress t' = r := by
    intro r hs hq t'
    rw [progress]
    by_cases here : t' = t
    · subst here
      simp [hs, hq]
    · rw [Function.update_of_ne here]
  exact ⟨same old.1 new.1, same old.2 new.2, status, outcome, cmds, counts, result⟩

theorem make1a_quiet (top : s.stack = ⟨c, par, .make1a⟩ :: rest) (calm : s.intr = false) :
    Quiet s (s.make1a false ⟨c, par, .make1a⟩) := by
  obtain ⟨parents, asynccnt, same⟩ := register_same s c par
  rcases make1a_cases top calm with ⟨-, turn⟩ | ⟨fresh, turn⟩ <;> rw [turn, same]
  · exact ⟨fun _ => .rfl, fun _ => .rfl, rfl, rfl, rfl, rfl, rfl⟩
  · exact .progress (t := c) (q := .onstack) (by simp [fresh]) (by simp) rfl rfl rfl rfl rfl rfl

/-- A target starts its work. -/
theorem Tallied.start (h : Tallied g counted s) (active : s.progress t = .active)
    (started : Started g t s s') : ∃ counted', Tallied g counted' s' := by
  have other : ∀ {t'}, s.progress t' = .running ∨ s.progress t' = .done → t' ≠ t := by
    rintro t' old rfl
    simp [active] at old
  have notCounted : t ∉ counted := by simp [h.running, active]
  have noCmds : s.cmds t = [] := by
    by_contra some
    exact other (h.cmds t some) rfl
  have blamed : Blamed g s → Blamed g s' := by
    rintro (fate | reported | failed | ⟨t', hp, bad⟩)
    · exact .inl fate
    · exact .inr (.inl (started.result.trans reported))
    · exact .inr (.inr (.inl (started.counts.2 ▸ failed)))
    · have ne := other (.inl hp)
      exact .inr (.inr (.inr ⟨t', (started.progress t' ne).trans hp, started.status t' ne ▸ bad⟩))
  have status : s'.status t ≠ .intr := by
    rcases started.taken with ⟨fail, -⟩ | same | ⟨c, -, same⟩
    · simp [fail]
    · exact same ▸ h.status t
    · exact same ▸ h.status c
  have blame : s'.status t ≠ .ok → Blamed g s' := by
    intro bad
    rcases started.taken with ⟨-, fate⟩ | same | ⟨c, -, same⟩
    · exact .inl ⟨t, fate⟩
    · exact blamed (h.blame t (same ▸ bad))
    · exact blamed (h.blame c (same ▸ bad))
  have here : ∃ counted' : List T, counted'.Nodup ∧
      (∀ t', t' ∈ counted' ↔ s'.progress t' = .running) ∧
      s'.counts.total + counted.length = s.counts.total + counted'.length ∧
      (s'.cmds t ≠ [] → s'.progress t = .running) ∧ s'.progress t ≠ .done := by
    rcases started.prepared with ⟨same, cmds, total⟩ | ⟨isRunning, -, total⟩
    · refine ⟨counted, h.nodup, fun t' => ?_, by rw [total], by simp [cmds, noCmds], ?_⟩
      · by_cases here : t' = t
        · subst here
          rw [same]
          exact h.running t'
        · rw [started.progress t' here]
          exact h.running t'
      · simp [same, active]
    · refine ⟨t :: counted, List.nodup_cons.mpr ⟨notCounted, h.nodup⟩, fun t' => ?_, ?_,
        fun _ => isRunning, by simp [isRunning]⟩
      · by_cases here : t' = t
        · subst here
          simp [isRunning]
        · rw [List.mem_cons, started.progress t' here, ← h.running t']
          simp [here]
      · rw [total, List.length_cons]
        omega
  obtain ⟨counted', nodup, isRunning, total, cmds, notDone⟩ := here
  refine ⟨counted',
    { nodup, running := isRunning, total := ?_, status := fun t' => ?_, outcome := ?_,
      cmds := fun t' some => ?_, spent := fun t' done ok => ?_, blame := fun t' bad => ?_,
      share := fun a bad => blamed (h.share a (started.outcome ▸ bad)) }⟩
  · have := h.total
    rw [started.counts.1, started.counts.2]
    omega
  · by_cases same : t' = t
    · exact same ▸ status
    · exact started.status t' same ▸ h.status t'
  · exact started.outcome ▸ h.outcome
  · by_cases same : t' = t
    · subst same
      exact .inl (cmds some)
    · rw [started.progress t' same]
      exact h.cmds t' (started.cmds t' same ▸ some)
  · have ne : t' ≠ t := by
      rintro rfl
      exact notDone done
    rw [started.cmds t' ne]
    exact h.spent t' (started.progress t' ne ▸ done) (started.status t' ne ▸ ok)
  · by_cases same : t' = t
    · subst same
      exact blame bad
    · exact blamed (h.blame t' (started.status t' same ▸ bad))

/-- A command has ended, without an interrupt. -/
theorem Tallied.ended {status : Status} (h : Tallied g counted s)
    (running : s.progress t = .running) (ok : s.status t = .ok) (notIntr : status ≠ .intr)
    (others : List (Cmd R N)) :
    Tallied g counted { s with
      status := update s.status t status
      cmds := update s.cmds t others } := by
  have blamed : Blamed g s → Blamed g { s with
      status := update s.status t status
      cmds := update s.cmds t others } := by
    refine Or.imp_right (Or.imp_right (Or.imp_right ?_))
    rintro ⟨t', hp, bad⟩
    have ne : t' ≠ t := by
      rintro rfl
      exact bad ok
    refine ⟨t', hp, ?_⟩
    dsimp only
    rwa [Function.update_of_ne ne]
  refine
    { nodup := h.nodup, running := h.running, total := h.total, status := fun t' => ?_,
      outcome := h.outcome, cmds := fun t' some => ?_, spent := fun t' done ok => ?_,
      blame := fun t' bad => ?_, share := fun a bad => blamed (h.share a bad) }
  · dsimp only
    by_cases same : t' = t
    · subst same
      rwa [Function.update_self]
    · rw [Function.update_of_ne same]
      exact h.status t'
  · dsimp only at some
    by_cases same : t' = t
    · exact .inl (same ▸ running)
    · rw [Function.update_of_ne same] at some
      exact h.cmds t' some
  · dsimp only at done ok ⊢
    have ne : t' ≠ t := by
      rintro rfl
      simp [running] at done
    rw [Function.update_of_ne ne] at ok ⊢
    exact h.spent t' done ok
  · dsimp only at bad
    by_cases same : t' = t
    · subst same
      exact .inr (.inr (.inr ⟨t', running, bad⟩))
    · rw [Function.update_of_ne same] at bad
      exact blamed (h.blame t' bad)

/-- A target is done. -/
theorem Tallied.finish {woken : List (Frame T)} (h : Tallied g counted s)
    (hp : s.progress t = .active ∨ s.progress t = .running)
    (last : s.cmds t = [] ∨ s.status t ≠ .ok) (finished : Finished g t s s' woken) :
    Tallied g (counted.erase t) s' := by
  have progress : ∀ {t'}, t' ≠ t → s'.progress t' = s.progress t' := by
    intro t' ne
    rw [finished.progress, Function.update_of_ne ne]
  have isDone : s'.progress t = .done := by rw [finished.progress, Function.update_self]
  have notIntr : s'.status t ≠ .intr := by
    rcases finished.taken with same | ⟨a, -, same⟩
    · exact same ▸ h.status t
    · exact same ▸ h.outcome a
  have count := h.total
  have counts := finished.tally
  -- the target leaves the list when it is counted
  have total : s'.counts.total =
      s'.counts.made + s'.counts.failed + (counted.erase t).length ∧
      s.counts.failed ≤ s'.counts.failed ∧
      (s.progress t = .running → s'.status t ≠ .ok → 0 < s'.counts.failed) := by
    rw [finished.total, counts.1, counts.2]
    rcases hp with hp | hp
    · have absent : t ∉ counted := by simp [h.running, hp]
      rw [List.erase_of_not_mem absent]
      simp [hp, count]
    · have there : t ∈ counted := (h.running t).mpr hp
      have := List.length_pos_of_mem there
      rw [List.length_erase_of_mem there]
      cases hs : s'.status t
      · simp [hp]
        omega
      · simp [hp]
        omega
      · exact absurd hs notIntr
  have blamed : Blamed g s → Blamed g s' := by
    rintro (fate | reported | failed | ⟨t', hp', bad⟩)
    · exact .inl fate
    · exact .inr (.inl (finished.result.trans reported))
    · exact .inr (.inr (.inl (failed.trans_le total.2.1)))
    · by_cases same : t' = t
      · subst same
        exact .inr (.inr (.inl (total.2.2 hp' fun ok => bad (finished.settled.mp ok).1)))
      · exact .inr (.inr (.inr ⟨t', progress same ▸ hp', finished.status t' same ▸ bad⟩))
  have blame : s'.status t ≠ .ok → Blamed g s' := by
    intro bad
    rcases finished.taken with same | ⟨a, -, same⟩
    · exact blamed (h.blame t (same ▸ bad))
    · exact blamed (h.share a (same ▸ bad))
  refine
    { nodup := h.nodup.erase t, running := fun t' => ?_, total := total.1, status := fun t' => ?_,
      outcome := fun a => ?_, cmds := fun t' some => ?_, spent := fun t' done ok => ?_,
      blame := fun t' bad => ?_, share := fun a bad => ?_ }
  · by_cases same : t' = t
    · subst same
      simp [isDone, h.nodup.mem_erase_iff]
    · rw [progress same, ← h.running t', h.nodup.mem_erase_iff]
      simp [same]
  · by_cases same : t' = t
    · exact same ▸ notIntr
    · exact finished.status t' same ▸ h.status t'
  · rcases finished.shared a with same | same
    · exact same ▸ h.outcome a
    · exact same ▸ notIntr
  · by_cases same : t' = t
    · exact .inr (same ▸ isDone)
    · rw [progress same]
      exact h.cmds t' (finished.cmds ▸ some)
  · rw [finished.cmds]
    by_cases same : t' = t
    · subst same
      exact last.resolve_right (not_not.mpr (finished.settled.mp ok).1)
    · exact h.spent t' (progress same ▸ done) (finished.status t' same ▸ ok)
  · by_cases same : t' = t
    · subst same
      exact blame bad
    · exact blamed (h.blame t' (finished.status t' same ▸ bad))
  · rcases finished.shared a with same | same
    · exact blamed (h.share a (same ▸ bad))
    · exact blame (same ▸ bad)

variable [DecidableEq A] [DecidableEq R] [DecidableEq N]

/-- **A turn of the loop** keeps the tally, up to an interrupt. -/
theorem next_tallied (inv : Inv g waits s) (h : Tallied g counted s) (calm : s'.intr = false)
    (turn : s.next g = .ok s') : ∃ counted', Tallied g counted' s' := by
  have before := next_intr turn calm
  unfold State.next at turn
  split at turn
  · rw [← Except.ok.inj turn]
    exact ⟨counted, h⟩
  · next f rest top =>
    obtain ⟨t, par, curstate⟩ := f
    simp only [before, Bool.false_eq_true, if_false] at turn
    cases curstate with
    | make1a =>
      rw [← Except.ok.inj turn]
      exact ⟨counted, h.quiet (make1a_quiet top before)⟩
    | make1atail =>
      rw [← Except.ok.inj turn, make1atail_eq top]
      have onstack : s.progress t = .onstack := inv.mem_opened.mp (by simp [top])
      exact ⟨counted, h.quiet (.progress (t := t) (q := .active) (by simp [onstack]) (by simp) rfl
        rfl rfl rfl rfl rfl)⟩
    | make1b =>
      have owes : 1 ≤ owed g waits s.stack s.parents t :=
        owed_pos (top ▸ List.mem_cons_self) (holds_mk.mpr ⟨rfl, .inr rfl⟩)
      obtain ⟨hp, -⟩ := inv.waiting owes
      have apart : ∀ x, g.semaphore t = some x → x ≠ t := fun x =>
        inv.ne_semaphore (by rcases hp with hp | hp <;> simp [hp])
      rcases make1b_cases top apart turn with
        ⟨-, rfl⟩ | ⟨-, x, -, -, rfl⟩ | ⟨one, -, started, -⟩
      · exact ⟨counted, h.quiet ⟨fun _ => .rfl, fun _ => .rfl, rfl, rfl, rfl, rfl, rfl⟩⟩
      · exact ⟨counted, h.quiet ⟨fun _ => .rfl, fun _ => .rfl, rfl, rfl, rfl, rfl, rfl⟩⟩
      · exact h.start (inv.last top one) started
    | make1c =>
      rcases make1c_cases top turn with ⟨-, -, -, rfl⟩ | ⟨-, -, -, -, log, rfl⟩ | ⟨last, turn⟩
      · exact ⟨counted, h.quiet ⟨fun _ => .rfl, fun _ => .rfl, rfl, rfl, rfl, rfl, rfl⟩⟩
      · exact ⟨counted, h.quiet ⟨fun _ => .rfl, fun _ => .rfl, rfl, rfl, rfl, rfl, rfl⟩⟩
      · obtain ⟨asked, woken, finished, -⟩ := finish_cases turn
        obtain ⟨hp, -⟩ := inv.working (t := t) (by simp [top])
        exact ⟨_, h.finish hp last finished⟩
    | make1d status =>
      obtain ⟨hp, -⟩ := inv.working (t := t) (by simp [top])
      obtain ⟨some, ok⟩ :=
        inv.command ⟨t, par, .make1d status⟩ (top ▸ List.mem_cons_self) status rfl
      have running : s.progress t = .running := by
        rcases hp with hp | hp
        · simpa [hp] using h.cmds t some
        · exact hp
      obtain ⟨cmd, others, log, intr, -, notIntr, -, rfl⟩ := make1d_cases top turn
      exact ⟨counted, (h.ended running ok (notIntr calm).2 others).quiet
        ⟨fun _ => .rfl, fun _ => .rfl, rfl, rfl, rfl, rfl, rfl⟩⟩

end Turns

/-! ### Runs -/

theorem initial_tallied (h : Initial g s) : Tallied g [] s where
  nodup := List.nodup_nil
  running t := by rcases h.progress t with hp | hp <;> simp [hp]
  total := by simp [h.counts]
  status t := by simp [h.status]
  outcome a := by simp [h.outcome]
  cmds t some := absurd (h.cmds t) some
  spent t _ _ := h.cmds t
  blame t bad := absurd (h.status t) bad
  share a bad := absurd (h.outcome a) bad

variable [DecidableEq T]

/-- When nothing is at work nothing is running. -/
theorem Tallied.idle (h : Tallied g counted s) (inv : Inv g waits s) (empty : s.stack = [])
    (idle : s.slots = []) : counted = [] := by
  apply List.eq_nil_iff_forall_not_mem.mpr
  intro t ht
  have accounts := inv.accounts t
  rw [(h.running t).mp ht] at accounts
  simp [Accounts, work, empty, idle] at accounts

omit [DecidableEq T] in
/-- The next goal starts its own count. -/
theorem Tallied.call (h : Tallied g [] s) (goal : T) : Tallied g [] (s.call goal) := by
  have blamed : Blamed g s → Blamed g (s.call goal) := by
    rintro (fate | reported | failed | ⟨t, running, -⟩)
    · exact .inl fate
    · exact .inr (.inl (by simp [State.call, reported]))
    · have := h.total
      refine .inr (.inl ?_)
      simp only [State.call, Bool.or_eq_true, bne_iff_ne]
      rw [List.length_nil] at this
      omega
    · exact absurd ((h.running t).mpr running) List.not_mem_nil
  exact
    { nodup := h.nodup, running := h.running, total := rfl, status := h.status,
      outcome := h.outcome, cmds := h.cmds, spent := h.spent
      blame := fun t bad => blamed (h.blame t bad), share := fun a bad => blamed (h.share a bad) }

variable [DecidableEq A] [DecidableEq R] [DecidableEq N]

/-- **The tally holds in every state**, until an interrupt. -/
theorem Reachable.tallied (h : Reachable g s) (calm : s.intr = false) :
    ∃ counted, Tallied g counted s := by
  induction h with
  | start initial => exact ⟨[], initial_tallied initial⟩
  | call goal before empty idle ih =>
    obtain ⟨counted, h⟩ := ih calm
    obtain ⟨waits, inv⟩ := before.inv calm
    obtain rfl := h.idle inv empty idle
    exact ⟨[], h.call goal⟩
  | step before step ih =>
    cases step with
    | turn _ _ turn =>
      obtain ⟨counted, h⟩ := ih (next_intr turn calm)
      obtain ⟨waits, inv⟩ := before.inv (next_intr turn calm)
      exact next_tallied inv h calm turn
    | wait _ _ runs =>
      obtain ⟨new, slots, same, -⟩ := closures_eq runs
      rw [same] at calm ⊢
      obtain ⟨counted, h⟩ := ih calm
      exact ⟨counted, h.quiet ⟨fun _ => .rfl, fun _ => .rfl, rfl, rfl, rfl, rfl, rfl⟩⟩

/-! ### Interrupts -/

/-- Commands may be prepared for a target after an interrupt, but they are not started. -/
theorem make1b_counts (h : s.make1b g true f = .ok s') : s'.result = s.result ∧
    s'.counts.made = s.counts.made ∧ s.counts.total ≤ s'.counts.total := by
  unfold State.make1b at h
  dsimp only at h
  split at h
  · rw [← Except.ok.inj h]
    exact ⟨rfl, rfl, le_rfl⟩
  · split at h
    · rw [← Except.ok.inj h]
      exact ⟨rfl, rfl, le_rfl⟩
    · obtain ⟨s₁, prepared, h⟩ := bind_ok h
      obtain ⟨failed, counts, log, made, -, total, same⟩ := inherit_skip
        { s with asynccnt := update s.asynccnt f.t (s.asynccnt f.t - 1) } g f.t
      obtain ⟨asynccnt, acquired⟩ := acquire_same s₁ g f.t
      rw [same] at prepared
      rw [← Except.ok.inj h, goto_popped, acquired]
      rcases prepare_cases prepared with rfl | ⟨-, -, rfl⟩ | ⟨-, cmds, running, rfl⟩
      · exact ⟨rfl, made, total.ge⟩
      · exact ⟨rfl, made, total.ge⟩
      · exact ⟨rfl, made, total.ge.trans (Nat.le_succ _)⟩

/-- After an interrupt no target is made. -/
theorem popped_counts (halted : s.intr = true) (top : s.stack = f :: rest)
    (notOk : f.curstate = .make1c → s.status f.t ≠ .ok) (turn : s.next g = .ok s') :
    s'.result = s.result ∧ s'.counts.made = s.counts.made ∧
      s.counts.total ≤ s'.counts.total := by
  unfold State.next at turn
  rw [top] at turn
  simp only [halted, if_true] at turn
  split at turn
  · obtain ⟨parents, asynccnt, same⟩ := register_same s.pop f.t f.parent
    rw [← Except.ok.inj turn]
    unfold State.make1a
    dsimp only
    rw [same]
    split
    · exact ⟨rfl, rfl, le_rfl⟩
    · rw [goto_popped]
      exact ⟨rfl, rfl, le_rfl⟩
  · rw [← Except.ok.inj turn, State.make1atail, goto_popped]
    exact ⟨rfl, rfl, le_rfl⟩
  · have counts := make1b_counts turn
    exact counts
  · next make1c =>
    unfold State.make1c at turn
    split at turn
    · next ok => exact absurd ok (notOk make1c)
    · obtain ⟨asked, woken, finished, -⟩ := finish_cases turn
      have notMade : ¬ (s.pop.progress f.t = .running ∧ s'.status f.t = .ok) :=
        fun made => notOk make1c (finished.settled.mp made.2).1
      refine ⟨finished.result, ?_, finished.total.ge⟩
      rw [finished.tally.1, if_neg notMade]
      rfl
  · unfold State.make1d at turn
    dsimp only at turn
    split at turn
    · cases turn
    · rw [← Except.ok.inj turn, goto_popped]
      exact ⟨rfl, rfl, le_rfl⟩

/-- A run is interrupted at the end of a command, whose target has not been made. -/
theorem interrupted (inv : Inv g waits s) (h : Tallied g counted s) (calm : s.intr = false)
    (halted : s'.intr = true) (turn : s.next g = .ok s') :
    s'.counts.made < s'.counts.total := by
  unfold State.next at turn
  split at turn
  · rw [← Except.ok.inj turn, calm] at halted
    cases halted
  · next f rest top =>
    obtain ⟨t, par, curstate⟩ := f
    simp only [calm, Bool.false_eq_true, if_false] at turn
    cases curstate with
    | make1a =>
      rw [← Except.ok.inj turn, make1a_intr, calm] at halted
      cases halted
    | make1atail =>
      rw [← Except.ok.inj turn, State.make1atail, goto_intr] at halted
      simp [calm] at halted
    | make1b =>
      rw [make1b_intr turn, calm] at halted
      cases halted
    | make1c =>
      rw [make1c_intr turn, calm] at halted
      cases halted
    | make1d status =>
      obtain ⟨hp, -⟩ := inv.working (t := t) (by simp [top])
      obtain ⟨some, -⟩ :=
        inv.command ⟨t, par, .make1d status⟩ (top ▸ List.mem_cons_self) status rfl
      have running : s.progress t = .running := by
        rcases hp with hp | hp
        · simpa [hp] using h.cmds t some
        · exact hp
      have count := List.length_pos_of_mem ((h.running t).mpr running)
      have := h.total
      obtain ⟨cmd, others, log, intr, -, -, -, rfl⟩ := make1d_cases top turn
      dsimp only
      omega

/-- An interrupt is reported as a failure. -/
theorem Reachable.reported (h : Reachable g s) (halted : s.intr = true) :
    s.result = true ∨ s.counts.made < s.counts.total := by
  induction h with
  | start initial => simp [initial.intr] at halted
  | call goal _ _ _ ih =>
    refine .inl ?_
    rcases ih halted with reported | less
    · simp [State.call, reported]
    · simp only [State.call, Bool.or_eq_true, bne_iff_ne]
      exact .inr less.ne'
  | @step s s' before step ih =>
    cases step with
    | turn some _ turn =>
      obtain ⟨f, rest, top⟩ := List.exists_cons_of_ne_nil some
      by_cases already : s.intr = true
      · obtain ⟨result, made, total⟩ := popped_counts already top
          (before.paced.halted already f (top ▸ List.mem_cons_self)) turn
        rw [result, made]
        exact (ih already).imp_right fun less => less.trans_le total
      · have calm : s.intr = false := by simpa using already
        obtain ⟨counted, tallied⟩ := before.tallied calm
        obtain ⟨waits, inv⟩ := before.inv calm
        exact .inr (interrupted inv tallied calm halted turn)
    | wait _ _ runs =>
      obtain ⟨new, slots, same, -⟩ := closures_eq runs
      rw [same] at halted ⊢
      exact ih halted

/-! ### The end -/

/-- **At the end** each target that was counted has been made or has failed. -/
theorem tally_closed (h : Reachable g s) (calm : s.intr = false) (empty : s.stack = [])
    (idle : s.slots = []) : s.counts.total = s.counts.made + s.counts.failed := by
  obtain ⟨counted, tallied⟩ := h.tallied calm
  obtain ⟨waits, inv⟩ := h.inv calm
  obtain rfl := tallied.idle inv empty idle
  exact tallied.total

/-- **A success is one**: when no run of `make1` has reported a failure and `make0` has found all
targets, there was no interrupt, all targets are fine, and all commands of those that are done have
been run. -/
theorem make_succeeds (h : Reachable g s) (empty : s.stack = []) (idle : s.slots = [])
    (result : s.result = false) (made : s.counts.total = s.counts.made)
    (found : ∀ t, g.fate t ≠ .cantfind ∧ g.fate t ≠ .cantmake) :
    s.intr = false ∧ ∀ t, s.status t = .ok ∧ (s.progress t = .done → s.cmds t = []) := by
  have calm : s.intr = false := by
    by_contra halted
    rcases h.reported (by simpa using halted) with reported | less
    · simp [result] at reported
    · omega
  obtain ⟨counted, tallied⟩ := h.tallied calm
  have closed := tally_closed h calm empty idle
  obtain ⟨waits, inv⟩ := h.inv calm
  have none := tallied.idle inv empty idle
  have fine : ∀ t, s.status t = .ok := by
    intro t
    by_contra bad
    rcases tallied.blame t bad with ⟨t', fate⟩ | reported | failed | ⟨t', running, -⟩
    · exact fate.elim (found t').1 (found t').2
    · simp [result] at reported
    · omega
    · simpa [none] using (tallied.running t').mpr running
  exact ⟨calm, fun t => ⟨fine t, fun done => tallied.spent t done (fine t)⟩⟩

theorem make_succeeds_pair : (pairAfter 15).counts.made = 2 ∧ (pairAfter 15).intr = false ∧
    ∀ t, (pairAfter 15).status t = .ok ∧
      ((pairAfter 15).progress t = .done → (pairAfter 15).cmds t = []) :=
  ⟨rfl, make_succeeds (pairAfter_reachable 15 rfl) rfl rfl rfl rfl
    fun _ => ⟨by simp [pair], by simp [pair]⟩⟩

end Make

end MapnikPackaging
