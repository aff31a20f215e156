/-
What one turn of the loop of `make1` does, before an interrupt.

One statement for each function of `engine/make1.c`: which cases there are, and what each changes.
The later modules go by these and not by the definitions.

* `make1a_cases`, `make1b_cases`, `make1c_cases`, `make1d_cases` — the functions.
* `Started`, `Finished` — the two moves that change most: a target starts its work, and is done.
-/

import MapnikPackaging.Engine.Make

namespace MapnikPackaging

namespace Make

open Function (update)

variable {T A R N : Type} [DecidableEq T] {g : Graph T A R N} {s s' : State T A R N} {t c : T}
  {par : Option T} {f : Frame T} {rest : List (Frame T)}

/-- What runs through has run through its first part. -/
theorem bind_ok {ε α β : Type} {first : Except ε α} {next : α → Except ε β} {b : β}
    (h : first >>= next = .ok b) : ∃ a, first = .ok a ∧ next a = .ok b := by
  cases first with
  | error e => cases h
  | ok a => exact ⟨a, rfl, h⟩

/-! ### Statuses -/

theorem Status.val_eq_zero {a : Status} : a.val = 0 ↔ a = .ok := by cases a <;> simp [Status.val]

theorem Status.worse_mem (a b : Status) : a.worse b = a ∨ a.worse b = b := by
  unfold Status.worse
  split
  · exact .inr rfl
  · exact .inl rfl

theorem Status.worse_eq_ok {a b : Status} : a.worse b = .ok ↔ a = .ok ∧ b = .ok := by
  cases a <;> cases b <;> simp [Status.worse, Status.val]

omit [DecidableEq T] in
/-- The worst status is fine if all are, of the dependencies that are cared for. -/
theorem collect_ok : (s.collect g t).2 = .ok ↔
    s.status t = .ok ∧ ∀ c ∈ s.depends t, g.nocare c = true ∨ s.status c = .ok := by
  have general : ∀ (l : List T) (worst : Option T × Status),
      (l.foldl (fun worst c =>
        if worst.2.val < (s.status c).val ∧ g.nocare c = false then (some c, s.status c)
        else worst) worst).2 = .ok ↔
      worst.2 = .ok ∧ ∀ c ∈ l, g.nocare c = true ∨ s.status c = .ok := by
    intro l
    induction l with
    | nil => simp
    | cons c l ih =>
      intro worst
      rw [List.foldl_cons, ih, List.forall_mem_cons]
      split
      · next worse =>
        have bad : s.status c ≠ .ok := by
          intro ok
          simp [ok, Status.val] at worse
        simp [bad, worse.2]
      · next notWorse =>
        constructor
        · rintro ⟨ok, all⟩
          refine ⟨ok, ?_, all⟩
          by_contra bad
          rw [not_or, Bool.not_eq_true] at bad
          refine notWorse ⟨?_, bad.1⟩
          rw [ok, Status.val]
          exact Nat.pos_of_ne_zero fun zero => bad.2 (Status.val_eq_zero.mp zero)
        · rintro ⟨ok, -, all⟩
          exact ⟨ok, all⟩
  exact general _ _

omit [DecidableEq T] in
/-- The worst status is one of theirs. -/
theorem collect_mem : (s.collect g t).2 = s.status t ∨
    ∃ c ∈ s.depends t, (s.collect g t).2 = s.status c := by
  have general : ∀ (l : List T) (worst : Option T × Status),
      (l.foldl (fun worst c =>
        if worst.2.val < (s.status c).val ∧ g.nocare c = false then (some c, s.status c)
        else worst) worst).2 = worst.2 ∨
      ∃ c ∈ l, (l.foldl (fun worst c =>
        if worst.2.val < (s.status c).val ∧ g.nocare c = false then (some c, s.status c)
        else worst) worst).2 = s.status c := by
    intro l
    induction l with
    | nil => simp
    | cons c l ih =>
      intro worst
      rw [List.foldl_cons]
      rcases ih (if worst.2.val < (s.status c).val ∧ g.nocare c = false then (some c, s.status c)
        else worst) with same | ⟨c', hc', same⟩
      · rw [same]
        split
        · exact .inr ⟨c, List.mem_cons_self, rfl⟩
        · exact .inl rfl
      · exact .inr ⟨c', List.mem_cons_of_mem _ hc', same⟩
  exact general _ _

/-! ### `make1a` -/

omit [DecidableEq T] in
theorem goto_cons (top : s.stack = f :: rest) (curstate : Curstate) :
    s.goto false curstate = { s with stack := { f with curstate } :: rest } := by
  simp [State.goto, top]

/-- The parent is noted, unless the target is done, on the stack, or a semaphore. -/
theorem register_eq (s : State T A R N) (c : T) (par : Option T) :
    ((par = none ∨ s.progress c = .onstack ∨ s.progress c = .done ∨ s.progress c = .semaphore) ∧
      s.register c par = s) ∨
    ∃ p, par = some p ∧
      (s.progress c = .init ∨ s.progress c = .active ∨ s.progress c = .running) ∧
      s.register c par = { s with
        parents := update s.parents c (s.parents c ++ [p])
        asynccnt := update s.asynccnt p (s.asynccnt p + 1) } := by
  unfold State.register
  cases par with
  | none => exact .inl ⟨.inl rfl, rfl⟩
  | some p => cases hp : s.progress c <;> simp

/-- What registering changes is none of these. -/
theorem register_same (s : State T A R N) (c : T) (par : Option T) :
    ∃ parents asynccnt, s.register c par = { s with parents, asynccnt } := by
  rcases register_eq s c par with ⟨-, h⟩ | ⟨p, -, -, h⟩
  · exact ⟨s.parents, s.asynccnt, h⟩
  · exact ⟨_, _, h⟩

theorem make1a_cases (top : s.stack = ⟨c, par, .make1a⟩ :: rest) (calm : s.intr = false) :
    (s.progress c ≠ .init ∧ s.make1a false ⟨c, par, .make1a⟩ =
      { s.register c par with stack := rest }) ∨
    (s.progress c = .init ∧ s.make1a false ⟨c, par, .make1a⟩ =
      { s.register c par with
        asynccnt := update (s.register c par).asynccnt c 1
        depends := update s.depends c (s.depends c ++ s.newIncludes c)
        progress := update s.progress c .onstack
        stack := (s.depends c ++ s.newIncludes c).map (fun d => ⟨d, some c, .make1a⟩) ++
          ⟨c, par, .make1atail⟩ :: rest }) := by
  obtain ⟨parents, asynccnt, h⟩ := register_same s c par
  unfold State.make1a
  dsimp only
  rw [h]
  by_cases fresh : s.progress c = .init
  · exact .inr ⟨fresh, by simp [fresh, State.push, State.goto, State.newIncludes, top, calm]⟩
  · exact .inl ⟨fresh, by simp [fresh, State.pop, top]⟩

theorem make1atail_eq (top : s.stack = ⟨t, par, .make1atail⟩ :: rest) :
    s.make1atail false ⟨t, par, .make1atail⟩ = { s with
      progress := update s.progress t .active
      stack := ⟨t, par, .make1b⟩ :: rest } := by
  simp [State.make1atail, State.goto, top]

/-! ### `make1b` -/

/-- A target starts its work: it has its semaphore and the failures of its dependencies, and maybe
commands to run. -/
structure Started (g : Graph T A R N) (t : T) (s s' : State T A R N) : Prop where
  depends : s'.depends = s.depends
  includes : s'.includes = s.includes
  rescanned : s'.rescanned = s.rescanned
  parents : s'.parents = s.parents
  outcome : s'.outcome = s.outcome
  slots : s'.slots = s.slots
  result : s'.result = s.result
  intr : s'.intr = s.intr
  progress : ∀ t', t' ≠ t → s'.progress t' = s.progress t'
  status : ∀ t', t' ≠ t → s'.status t' = s.status t'
  cmds : ∀ t', t' ≠ t → s'.cmds t' = s.cmds t'
  asynccnt : ∀ t', s'.asynccnt t' =
    if t' = t then 0 else s.asynccnt t' + if g.semaphore t = some t' then 1 else 0
  counts : s'.counts.made = s.counts.made ∧ s'.counts.failed = s.counts.failed
  prepared :
    (s'.progress t = s.progress t ∧ s'.cmds t = s.cmds t ∧ s'.counts.total = s.counts.total) ∨
    (s'.progress t = .running ∧ s'.status t = .ok ∧ s'.counts.total = s.counts.total + 1)
  inherits : s'.status t = .ok →
    s.status t = .ok ∧ ∀ c ∈ s.depends t, g.nocare c = true ∨ s.status c = .ok
  taken : (s'.status t = .fail ∧ (g.fate t = .cantfind ∨ g.fate t = .cantmake)) ∨
    s'.status t = s.status t ∨ ∃ c ∈ s.depends t, s'.status t = s.status c

/-- Until its commands are prepared, the target only takes over a status. -/
theorem inherit_skip (s : State T A R N) (g : Graph T A R N) (t : T) : ∃ failed counts log,
    counts.made = s.counts.made ∧ counts.failed = s.counts.failed ∧
      counts.total = s.counts.total ∧ (s.inherit g t).skip g t =
        { s with status := update s.status t (s.collect g t).2, failed, counts, log } := by
  unfold State.skip
  split
  · exact ⟨_, { s.counts with skipped := s.counts.skipped + 1 }, _, rfl, rfl, rfl, rfl⟩
  · exact ⟨_, s.counts, s.log, rfl, rfl, rfl, rfl⟩

theorem acquire_asynccnt (t' : T) :
    (s.acquire g t).asynccnt t' = s.asynccnt t' + if g.semaphore t = some t' then 1 else 0 := by
  unfold State.acquire
  cases hx : g.semaphore t with
  | none => simp
  | some x =>
    by_cases same : t' = x
    · simp [same]
    · simp [Function.update_of_ne same, Ne.symm same]

theorem acquire_same (s : State T A R N) (g : Graph T A R N) (t : T) :
    ∃ asynccnt, s.acquire g t = { s with asynccnt } := by
  unfold State.acquire
  split
  · exact ⟨_, rfl⟩
  · exact ⟨s.asynccnt, rfl⟩

variable [DecidableEq A] [DecidableEq R] [DecidableEq N]

/-- What becomes of the target, by its status and its fate. -/
theorem prepare_cases (h : s.prepare g t = .ok s') :
    s' = s ∨
    (s.status t = .ok ∧ (g.fate t = .cantfind ∨ g.fate t = .cantmake) ∧
      s' = { s with status := update s.status t .fail }) ∨
    (s.status t = .ok ∧ ∃ cmds running, s' = { s with
      counts := { s.counts with total := s.counts.total + 1 }
      running
      cmds := update s.cmds t cmds
      progress := update s.progress t .running }) := by
  unfold State.prepare at h
  split at h
  · exact .inl (Except.ok.inj h).symm
  · next ok =>
    have ok : s.status t = .ok := by simpa using ok
    split at h
    all_goals first
      | exact .inl (Except.ok.inj h).symm
      | cases h
      | skip
    · next fate => exact .inr (.inl ⟨ok, .inl fate, rfl⟩)
    · next fate => exact .inr (.inl ⟨ok, .inr fate, rfl⟩)
    all_goals
      split at h
      · exact .inl (Except.ok.inj h).symm
      · split at h
        · cases h
        · next cmds running _ => exact .inr (.inr ⟨ok, cmds, running, (Except.ok.inj h).symm⟩)

/-- The target takes over what became of its dependencies, and prepares its commands. -/
theorem prepare_started {s₁ : State T A R N}
    (h : ((State.inherit g t { s with asynccnt := update s.asynccnt t (s.asynccnt t - 1) }).skip
      g t).prepare g t = .ok s₁) (one : s.asynccnt t = 1)
    (apart : ∀ x, g.semaphore t = some x → x ≠ t) :
    Started g t s (s₁.acquire g t) ∧ (s₁.acquire g t).stack = s.stack := by
  obtain ⟨failed, counts, log, made, failures, total, same⟩ := inherit_skip
    { s with asynccnt := update s.asynccnt t (s.asynccnt t - 1) } g t
  rw [same] at h
  have others : ∀ (status : Status) t', t' ≠ t → update s.status t status t' = s.status t' :=
    fun status t' ne => Function.update_of_ne ne _ _
  have count : ∀ t', s₁.asynccnt = update s.asynccnt t (s.asynccnt t - 1) →
      (s₁.acquire g t).asynccnt t' =
        if t' = t then 0 else s.asynccnt t' + if g.semaphore t = some t' then 1 else 0 := by
    intro t' same
    rw [acquire_asynccnt, same]
    by_cases here : t' = t
    · subst here
      have : g.semaphore t' ≠ some t' := fun own => apart t' own rfl
      simp [this, one]
    · simp [here]
  obtain ⟨asynccnt, acquired⟩ := acquire_same s₁ g t
  rcases prepare_cases h with rfl | ⟨ok, fate, rfl⟩ | ⟨ok, cmds, running, rfl⟩
  all_goals
    refine ⟨?_, by rw [acquired]⟩
    refine
      { depends := by rw [acquired], includes := by rw [acquired], rescanned := by rw [acquired],
        parents := by rw [acquired], outcome := by rw [acquired], slots := by rw [acquired],
        result := by rw [acquired], intr := by rw [acquired], progress := ?_, status := ?_,
        cmds := ?_, asynccnt := fun t' => count t' rfl,
        counts := by rw [acquired]; exact ⟨made, failures⟩,
        prepared := ?_, inherits := ?_, taken := ?_ }
    all_goals rw [acquired]
    all_goals clear acquired count same h
  · exact fun t' _ => rfl
  · exact others _
  · exact fun t' _ => rfl
  · exact .inl ⟨rfl, rfl, total⟩
  · intro ok
    exact collect_ok.mp ((Function.update_self _ _ _).symm.trans ok)
  · dsimp only
    rw [Function.update_self]
    exact .inr collect_mem
  · exact fun t' _ => rfl
  · intro t' ne
    simp [Function.update_of_ne ne]
  · exact fun t' _ => rfl
  · exact .inl ⟨rfl, rfl, total⟩
  · simp
  · exact .inl ⟨Function.update_self _ _ _, fate⟩
  · intro t' ne
    simp [Function.update_of_ne ne]
  · exact others _
  · intro t' ne
    simp [Function.update_of_ne ne]
  · exact .inr ⟨by simp, ok, by rw [total]⟩
  · intro ok
    exact collect_ok.mp ((Function.update_self _ _ _).symm.trans ok)
  · dsimp only
    rw [Function.update_self]
    exact .inr collect_mem

theorem make1b_cases (top : s.stack = ⟨t, par, .make1b⟩ :: rest)
    (apart : ∀ x, g.semaphore t = some x → x ≠ t)
    (h : s.make1b g false ⟨t, par, .make1b⟩ = .ok s') :
    (s.asynccnt t ≠ 1 ∧ s' = { s with
      asynccnt := update s.asynccnt t (s.asynccnt t - 1)
      stack := rest }) ∨
    (s.asynccnt t = 1 ∧ ∃ x, g.semaphore t = some x ∧ s.asynccnt x ≠ 0 ∧ s' = { s with
      parents := update s.parents x (s.parents x ++ [t])
      stack := rest }) ∨
    (s.asynccnt t = 1 ∧ (∀ x, g.semaphore t = some x → s.asynccnt x = 0) ∧ Started g t s s' ∧
      s'.stack = ⟨t, par, .make1c⟩ :: rest) := by
  unfold State.make1b at h
  dsimp only at h
  simp only [Function.update_self] at h
  split at h
  · next more =>
    refine .inl ⟨fun one => more (by rw [one]; rfl), ?_⟩
    rw [← Except.ok.inj h]
    simp [State.pop, top]
  · next last =>
    have one : s.asynccnt t = 1 := by
      rw [ne_eq, not_not] at last
      omega
    split at h
    · next x busy =>
      obtain ⟨own, held⟩ := Option.filter_eq_some_iff.mp busy
      refine .inr (.inl ⟨one, x, own, ?_, ?_⟩)
      · simpa [Function.update_of_ne (apart x own)] using held
      · rw [← Except.ok.inj h]
        simp [State.pop, top]
    · next free =>
      refine .inr (.inr ⟨one, fun x own => ?_, ?_⟩)
      · have := Option.filter_eq_none_iff.mp free x own
        simpa [Function.update_of_ne (apart x own)] using this
      · obtain ⟨s₁, hs₁, h⟩ := bind_ok h
        obtain ⟨started, stack⟩ := prepare_started hs₁ one apart
        have top' : (s₁.acquire g t).stack = ⟨t, par, .make1b⟩ :: rest := stack.trans top
        rw [← Except.ok.inj h, goto_cons top']
        exact ⟨{ started with }, rfl⟩

/-! ### `make1c` -/

omit [DecidableEq R] [DecidableEq N] in
theorem settle_status (s : State T A R N) : (s.settle g t).status t = .ok ↔
    s.status t = .ok ∧ ∀ a ∈ g.actions t, s.outcome a = .ok := by
  have general : ∀ (l : List A) (status : Status),
      l.foldl (fun status a => status.worse (s.outcome a)) status = .ok ↔
        status = .ok ∧ ∀ a ∈ l, s.outcome a = .ok := by
    intro l
    induction l with
    | nil => simp
    | cons a l ih =>
      intro status
      rw [List.foldl_cons, ih, Status.worse_eq_ok, List.forall_mem_cons, and_assoc]
  simpa [State.settle] using general (g.actions t) (s.status t)

omit [DecidableEq R] [DecidableEq N] in
theorem settle_outcome (s : State T A R N) (a : A) : (s.settle g t).outcome a = .ok ↔
    s.outcome a = .ok ∧ (a ∈ g.actions t → (s.settle g t).status t = .ok) := by
  unfold State.settle
  by_cases own : a ∈ g.actions t
  · simp [own, Status.worse_eq_ok]
  · simp [own]

omit [DecidableEq R] [DecidableEq N] in
theorem settle_mem (s : State T A R N) : (s.settle g t).status t = s.status t ∨
    ∃ a ∈ g.actions t, (s.settle g t).status t = s.outcome a := by
  have general : ∀ (l : List A) (status : Status),
      l.foldl (fun status a => status.worse (s.outcome a)) status = status ∨
        ∃ a ∈ l, l.foldl (fun status a => status.worse (s.outcome a)) status = s.outcome a := by
    intro l
    induction l with
    | nil => simp
    | cons a l ih =>
      intro status
      rw [List.foldl_cons]
      rcases ih (status.worse (s.outcome a)) with same | ⟨a', ha', same⟩
      · rw [same]
        exact (Status.worse_mem status (s.outcome a)).imp_right fun h => ⟨a, List.mem_cons_self, h⟩
      · exact .inr ⟨a', List.mem_cons_of_mem _ ha', same⟩
  simpa [State.settle] using general (g.actions t) (s.status t)

omit [DecidableEq R] [DecidableEq N] in
theorem settle_shared (s : State T A R N) (a : A) : (s.settle g t).outcome a = s.outcome a ∨
    (s.settle g t).outcome a = (s.settle g t).status t := by
  have same : (s.settle g t).outcome a =
      if a ∈ g.actions t then (s.outcome a).worse ((s.settle g t).status t) else s.outcome a := by
    simp [State.settle]
  rw [same]
  split
  · exact Status.worse_mem _ _
  · exact .inl rfl

/-- A target is done: its parents are told, and the first that waits for its semaphore. -/
structure Finished (g : Graph T A R N) (t : T) (s s' : State T A R N) (woken : List (Frame T)) :
    Prop where
  progress : s'.progress = update s.progress t .done
  cmds : s'.cmds = s.cmds
  running : s'.running = s.running
  slots : s'.slots = s.slots
  result : s'.result = s.result
  intr : s'.intr = s.intr
  status : ∀ t', t' ≠ t → s'.status t' = s.status t'
  settled : s'.status t = .ok ↔ s.status t = .ok ∧ ∀ a ∈ g.actions t, s.outcome a = .ok
  outcome : ∀ a, s'.outcome a = .ok ↔
    s.outcome a = .ok ∧ (a ∈ g.actions t → s'.status t = .ok)
  taken : s'.status t = s.status t ∨ ∃ a ∈ g.actions t, s'.status t = s.outcome a
  shared : ∀ a, s'.outcome a = s.outcome a ∨ s'.outcome a = s'.status t
  total : s'.counts.total = s.counts.total
  tally : s'.counts.made = s.counts.made +
      (if s.progress t = .running ∧ s'.status t = .ok then 1 else 0) ∧
    s'.counts.failed = s.counts.failed +
      (if s.progress t = .running ∧ s'.status t = .fail then 1 else 0)
  asynccnt : ∀ t', s'.asynccnt t' = s.asynccnt t' - if g.semaphore t = some t' then 1 else 0
  woken : (woken = [] ∧ s'.parents = s.parents ∧
      ∀ x, g.semaphore t = some x → s.parents x = []) ∨
    ∃ x first others, g.semaphore t = some x ∧ s.parents x = first :: others ∧
      s'.parents = update s.parents x others ∧ woken = [⟨first, none, .make1b⟩]

omit [DecidableEq A] [DecidableEq R] [DecidableEq N] in
theorem rescan_cases {additional : Option T} (h : s.rescan g t = .ok (additional, s')) :
    ∃ depends includes rescanned, s' = { s with depends, includes, rescanned } ∧
      ((additional = none ∧ depends = s.depends) ∨
        (∃ r inc, g.headers r = some inc) ∧ ∃ inc, additional = some inc) := by
  unfold State.rescan at h
  split at h
  · dsimp only at h
    generalize (if g.internal t then g.originalTarget t else t) = r at h
    split at h
    · obtain ⟨rfl, rfl⟩ := Prod.mk.inj (Except.ok.inj h)
      exact ⟨_, _, _, rfl, .inl ⟨rfl, rfl⟩⟩
    · next inc found =>
      split at h
      · cases h
      · obtain ⟨rfl, rfl⟩ := Prod.mk.inj (Except.ok.inj h)
        exact ⟨_, _, _, rfl, .inr ⟨⟨r, inc, found⟩, inc, rfl⟩⟩
  · obtain ⟨rfl, rfl⟩ := Prod.mk.inj (Except.ok.inj h)
    exact ⟨_, _, _, rfl, .inl ⟨rfl, rfl⟩⟩

omit [DecidableEq A] [DecidableEq R] [DecidableEq N] in
theorem release_cases {woken : List (Frame T)} (h : s.release g t = .ok (woken, s')) :
    (∃ parents asynccnt, s' = { s with parents, asynccnt }) ∧
    (∀ t', s'.asynccnt t' = s.asynccnt t' - if g.semaphore t = some t' then 1 else 0) ∧
    ((woken = [] ∧ s'.parents = s.parents ∧ ∀ x, g.semaphore t = some x → s.parents x = []) ∨
      ∃ x first others, g.semaphore t = some x ∧ s.parents x = first :: others ∧
        s'.parents = update s.parents x others ∧ woken = [⟨first, none, .make1b⟩]) := by
  unfold State.release at h
  split at h
  · next alone =>
    obtain ⟨rfl, rfl⟩ := Prod.mk.inj (Except.ok.inj h)
    exact ⟨⟨s.parents, s.asynccnt, rfl⟩, by simp [alone], .inl ⟨rfl, rfl, by simp [alone]⟩⟩
  · next x own =>
    have count : ∀ t', update s.asynccnt x (s.asynccnt x - 1) t' =
        s.asynccnt t' - if g.semaphore t = some t' then 1 else 0 := by
      intro t'
      by_cases same : t' = x
      · simp [same, own]
      · simp [Function.update_of_ne same, own, Ne.symm same]
    split at h
    · cases h
    · dsimp only at h
      split at h
      · next empty =>
        obtain ⟨rfl, rfl⟩ := Prod.mk.inj (Except.ok.inj h)
        refine ⟨⟨s.parents, _, rfl⟩, count, .inl ⟨rfl, rfl, fun y own' => ?_⟩⟩
        rwa [← Option.some.inj (own.symm.trans own')]
      · next first others queue =>
        obtain ⟨rfl, rfl⟩ := Prod.mk.inj (Except.ok.inj h)
        exact ⟨⟨_, _, rfl⟩, count, .inr ⟨x, first, others, own, queue, rfl, rfl⟩⟩

omit [DecidableEq T] [DecidableEq A] [DecidableEq R] [DecidableEq N] in
theorem tally_same (s : State T A R N) (t : T) : ∃ counts, s.tally t = { s with counts } ∧
    counts.total = s.counts.total ∧
    counts.made = s.counts.made +
      (if s.progress t = .running ∧ s.status t = .ok then 1 else 0) ∧
    counts.failed = s.counts.failed +
      (if s.progress t = .running ∧ s.status t = .fail then 1 else 0) := by
  unfold State.tally
  split
  · next running =>
    split
    · next ok => exact ⟨_, rfl, rfl, by simp [running, ok], by simp [ok]⟩
    · next fail => exact ⟨_, rfl, rfl, by simp [fail], by simp [running, fail]⟩
    · next intr => exact ⟨_, rfl, rfl, by simp [intr], by simp [intr]⟩
  · next notRunning => exact ⟨_, rfl, rfl, by simp [notRunning], by simp [notRunning]⟩

omit [DecidableEq R] [DecidableEq N] in
theorem finish_cases (h : s.finish g t = .ok s') :
    ∃ asked woken, Finished g t s s' woken ∧
      ((asked = [] ∧ s'.depends = s.depends) ∨ (∃ r inc, g.headers r = some inc) ∧
        ∃ inc, asked = (s.parents t).map fun c => ⟨inc, some c, .make1a⟩) ∧
      s'.stack = asked ++ (s.parents t).map (fun c => ⟨c, none, .make1b⟩) ++ woken ++
        s.stack.tail := by
  obtain ⟨counts, tallied, total, made, failed⟩ := tally_same (s.settle g t) t
  unfold State.finish at h
  dsimp only at h
  rw [tallied] at h
  obtain ⟨⟨additional, s₁⟩, rescanned, h⟩ := bind_ok h
  obtain ⟨⟨woken, s₂⟩, released, h⟩ := bind_ok h
  obtain ⟨depends, includes, rescanned, rfl, found⟩ := rescan_cases rescanned
  obtain ⟨⟨parents, asynccnt, rfl⟩, count, woke⟩ := release_cases released
  obtain rfl := Except.ok.inj h
  refine ⟨additional.elim [] fun inc => (s.parents t).map fun c => ⟨inc, some c, .make1a⟩, woken,
    { progress := rfl, cmds := rfl, running := rfl, slots := rfl, result := rfl, intr := rfl,
      status := fun t' ne => Function.update_of_ne ne _ _, settled := settle_status s,
      outcome := settle_outcome s, taken := settle_mem s, shared := settle_shared s,
      total := total, tally := ⟨made, failed⟩, asynccnt := count, woken := woke }, ?_, ?_⟩
  · rcases found with ⟨rfl, rfl⟩ | ⟨found, inc, rfl⟩
    · exact .inl ⟨rfl, rfl⟩
    · exact .inr ⟨found, inc, rfl⟩
  · cases additional <;> rfl

omit [DecidableEq R] [DecidableEq N] in
theorem make1c_cases (top : s.stack = ⟨t, par, .make1c⟩ :: rest)
    (h : s.make1c g false ⟨t, par, .make1c⟩ = .ok s') :
    (s.cmds t ≠ [] ∧ s.status t = .ok ∧ g.noexec = true ∧
      s' = { s with stack := ⟨t, par, .make1d .ok⟩ :: rest }) ∨
    (s.cmds t ≠ [] ∧ s.status t = .ok ∧ g.noexec = false ∧ s.slots.length < 64 ∧
      ∃ log, s' = { s with stack := rest, slots := s.slots ++ [t], log }) ∨
    ((s.cmds t = [] ∨ s.status t ≠ .ok) ∧ s.finish g t = .ok s') := by
  unfold State.make1c at h
  dsimp only at h
  split at h
  · next cmd others cmds ok =>
    have some : s.cmds t ≠ [] := by rw [cmds]; simp
    split at h
    · next noexec =>
      rw [goto_cons top] at h
      exact .inl ⟨some, ok, noexec, (Except.ok.inj h).symm⟩
    · next exec =>
      have exec : g.noexec = false := by simpa using exec
      unfold State.execCmd at h
      split at h
      · next free =>
        refine .inr (.inl ⟨some, ok, exec, free, s.log ++ [.launched t cmd], ?_⟩)
        rw [← Except.ok.inj h]
        simp [State.pop, top]
      · cases h
  · next other =>
    refine .inr (.inr ⟨?_, h⟩)
    by_contra both
    rw [not_or, not_not] at both
    obtain ⟨cmd, others, cmds⟩ := List.exists_cons_of_ne_nil both.1
    exact other cmd others cmds both.2

/-! ### `make1d` -/

omit [DecidableEq A] [DecidableEq R] [DecidableEq N] in
/-- A command that has ended gives way to the next. It interrupts the run if it was interrupted, or
failed and the run was to stop then. -/
theorem make1d_cases {status : Status} (top : s.stack = ⟨t, par, .make1d status⟩ :: rest)
    (h : s.make1d g false ⟨t, par, .make1d status⟩ status = .ok s') :
    ∃ cmd others log intr, s.cmds t = cmd :: others ∧
      (intr = false → s.intr = false ∧ State.ended g t cmd status ≠ .intr) ∧
      (s.intr = false → intr = true → State.ended g t cmd status ≠ .ok) ∧
      s' = { s with
        intr, log
        status := update s.status t (State.ended g t cmd status)
        cmds := update s.cmds t others
        stack := ⟨t, par, .make1c⟩ :: rest } := by
  unfold State.make1d at h
  dsimp only at h
  split at h
  · cases h
  · next cmd others cmds =>
    have top' : ∀ s₁ : State T A R N, s₁.stack = s.stack → s₁.goto false .make1c =
        { s₁ with stack := ⟨t, par, .make1c⟩ :: rest } := fun s₁ same =>
      goto_cons (same.trans top) .make1c
    refine ⟨cmd, others, _, _, cmds, ?_, ?_, (Except.ok.inj h).symm.trans (top' _ rfl)⟩
    · intro calm
      simp only [Bool.or_eq_false_iff, beq_eq_false_iff_ne] at calm
      exact ⟨calm.1, calm.2.1⟩
    · rintro calm halted ok
      simp [calm, ok] at halted

/-! ### Interrupts -/

section Interrupts

variable {popped : Bool} {curstate : Curstate}

omit [DecidableEq T] [DecidableEq A] [DecidableEq R] [DecidableEq N] in
@[simp] theorem goto_intr : (s.goto popped curstate).intr = s.intr := by
  unfold State.goto
  split <;> rfl

omit [DecidableEq A] [DecidableEq R] [DecidableEq N] in
theorem make1a_intr : (s.make1a popped f).intr = s.intr := by
  obtain ⟨parents, asynccnt, same⟩ := register_same s f.t f.parent
  unfold State.make1a
  dsimp only
  rw [same]
  split
  · rfl
  · simp [State.push]

theorem make1b_intr (h : s.make1b g popped f = .ok s') : s'.intr = s.intr := by
  unfold State.make1b at h
  dsimp only at h
  split at h
  · rw [← Except.ok.inj h]
    rfl
  · split at h
    · rw [← Except.ok.inj h]
      rfl
    · obtain ⟨s₁, prepared, h⟩ := bind_ok h
      obtain ⟨failed, counts, log, -, -, -, same⟩ := inherit_skip
        { s with asynccnt := update s.asynccnt f.t (s.asynccnt f.t - 1) } g f.t
      obtain ⟨asynccnt, acquired⟩ := acquire_same s₁ g f.t
      rw [same] at prepared
      rw [← Except.ok.inj h, goto_intr, acquired]
      rcases prepare_cases prepared with rfl | ⟨-, -, rfl⟩ | ⟨-, cmds, running, rfl⟩ <;> rfl

omit [DecidableEq R] [DecidableEq N] in
theorem make1c_intr (h : s.make1c g popped f = .ok s') : s'.intr = s.intr := by
  unfold State.make1c at h
  split at h
  · split at h
    · rw [← Except.ok.inj h, goto_intr]
    · unfold State.execCmd at h
      split at h
      · rw [← Except.ok.inj h]
        rfl
      · cases h
  · obtain ⟨counts, tallied, -⟩ := tally_same (s.settle g f.t) f.t
    unfold State.finish at h
    dsimp only at h
    rw [tallied] at h
    obtain ⟨⟨additional, s₁⟩, rescanned, h⟩ := bind_ok h
    obtain ⟨⟨woken, s₂⟩, released, h⟩ := bind_ok h
    obtain ⟨depends, includes, rescanned, rfl, -⟩ := rescan_cases rescanned
    obtain ⟨⟨parents, asynccnt, rfl⟩, -⟩ := release_cases released
    rw [← Except.ok.inj h]
    rfl

omit [DecidableEq A] [DecidableEq R] [DecidableEq N] in
theorem make1d_intr {status : Status} (h : s.make1d g popped f status = .ok s')
    (calm : s'.intr = false) : s.intr = false := by
  unfold State.make1d at h
  dsimp only at h
  split at h
  · cases h
  · rw [← Except.ok.inj h, goto_intr] at calm
    exact (Bool.or_eq_false_iff.mp calm).1

/-- An interrupt is for good. -/
theorem next_intr (h : s.next g = .ok s') (calm : s'.intr = false) : s.intr = false := by
  unfold State.next at h
  split at h
  · rwa [Except.ok.inj h]
  · have popped : ∀ b : Bool, (if b then s.pop else s).intr = s.intr := by rintro (_ | _) <;> rfl
    dsimp only at h
    split at h
    · rw [← popped, ← make1a_intr, Except.ok.inj h]
      exact calm
    · rw [← popped, ← calm, ← Except.ok.inj h, State.make1atail, goto_intr]
    · rw [← popped, ← make1b_intr h, calm]
    · rw [← popped, ← make1c_intr h, calm]
    · rw [← popped, make1d_intr h calm]

end Interrupts

end Make

end MapnikPackaging
