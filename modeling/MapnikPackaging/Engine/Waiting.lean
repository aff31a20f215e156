/-
Who waits for whom.

The targets that ask for their dependencies stand on the stack one above the other, each a
dependency of the one below. A target that is asked for while it stands there is not waited for: it
depends on the one that asks. All others are, and they are through with asking before the one that
waits for them. So nobody waits in a circle, whatever the graph.

`make1` looks at the files included by a target once more after it has been made, and then adds
dependencies behind the back of this order; what follows is about graphs where it finds none.

* `Ordered` — this, with the order in which the targets are through with asking.
* `launch_ready` — a command is started only when each dependency is done, and is fine or not cared
  for, apart from those that depend on the target themselves.
* `all_done` — when `make1` is through, so is every target it has come to, and all they depend on.
-/

import MapnikPackaging.Engine.Tokens
import MapnikPackaging.Graphs.Topological

namespace MapnikPackaging

namespace Make

open Function (update)
open Graphs Relation

variable {T A R N : Type} {t t' p c x : T} {f : Frame T} {rest stack : List (Frame T)}
  {depends depends' : T → List T} {par : Option T}

/-! ### The targets that ask -/

/-- The targets that ask for their dependencies, the last first. -/
def opened (stack : List (Frame T)) : List T :=
  stack.filterMap fun f => if f.curstate = .make1atail then some f.t else none

@[simp] theorem opened_nil : opened ([] : List (Frame T)) = [] := rfl

@[simp] theorem opened_make1atail :
    opened (⟨t, par, .make1atail⟩ :: rest) = t :: opened rest := by simp [opened]

theorem opened_cons (h : f.curstate ≠ .make1atail) : opened (f :: rest) = opened rest := by
  simp [opened, h]

theorem opened_append {l : List (Frame T)} (h : ∀ f ∈ l, f.curstate ≠ .make1atail) :
    opened (l ++ rest) = opened rest := by
  have none : opened l = [] := by
    simpa [opened, List.filterMap_eq_nil_iff] using h
  rw [opened, List.filterMap_append]
  exact (congrArg (· ++ opened rest) none).trans (List.nil_append _)

/-- `b` is a dependency of `a`. -/
def Dep (depends : T → List T) (a b : T) : Prop := b ∈ depends a

/-- Who is asked for is a dependency of the target next below that asks. -/
def Chained (depends : T → List T) : List (Frame T) → Prop
  | [] => True
  | f :: rest =>
    (f.curstate = .make1a → f.parent = (opened rest).head? ∧
      ∀ p ∈ (opened rest).head?, f.t ∈ depends p) ∧
    (f.curstate = .make1atail → ∀ p ∈ (opened rest).head?, f.t ∈ depends p) ∧
    Chained depends rest

theorem Chained.mono (h : Chained depends stack) (sub : ∀ t, depends t ⊆ depends' t) :
    Chained depends' stack := by
  induction stack with
  | nil => trivial
  | cons f rest ih =>
    obtain ⟨asks, opens, below⟩ := h
    exact ⟨fun hf => ⟨(asks hf).1, fun p hp => sub p ((asks hf).2 p hp)⟩,
      fun hf p hp => sub p (opens hf p hp), ih below⟩

/-- Each target that asks leads to the last of them. -/
theorem Chained.path (h : Chained depends stack) (last : p ∈ (opened stack).head?)
    (hc : c ∈ opened stack) : ReflTransGen (Dep depends) c p := by
  induction stack generalizing p with
  | nil => cases hc
  | cons f rest ih =>
    obtain ⟨asks, opens, below⟩ := h
    by_cases hf : f.curstate = .make1atail
    · have cons : opened (f :: rest) = f.t :: opened rest := by simp [opened, hf]
      rw [cons] at last hc
      obtain rfl : f.t = p := by simpa using last
      rcases List.mem_cons.mp hc with rfl | hc
      · exact .refl
      · obtain ⟨q, hq⟩ : ∃ q, q ∈ (opened rest).head? := by
          cases hl : opened rest with
          | nil => simp [hl] at hc
          | cons q l => exact ⟨q, by simp⟩
        exact (ih below hq hc).tail (opens hf q hq)
    · rw [opened_cons hf] at last hc
      exact ih below last hc

/-- A target asks for dependencies. -/
theorem chained_asked {asked : List T} (sub : ∀ d ∈ asked, d ∈ depends c)
    (h : Chained depends (⟨c, par, .make1atail⟩ :: rest)) :
    Chained depends
      (asked.map (fun d => ⟨d, some c, .make1a⟩) ++ ⟨c, par, .make1atail⟩ :: rest) := by
  induction asked with
  | nil => exact h
  | cons d asked ih =>
    have last : opened (asked.map (fun d => (⟨d, some c, .make1a⟩ : Frame T)) ++
        ⟨c, par, .make1atail⟩ :: rest) = c :: opened rest := by
      rw [opened_append (by simp), opened_make1atail]
    refine ⟨fun _ => ?_, by simp, ih fun d hd => sub d (List.mem_cons_of_mem _ hd)⟩
    simpa [last] using sub d List.mem_cons_self

/-- A dependency that asks itself depends on the target that asks for it. -/
theorem Chained.back (h : Chained depends (⟨c, some p, .make1a⟩ :: rest)) (hc : c ∈ opened rest) :
    TransGen (Dep depends) c p := by
  obtain ⟨asks, -, below⟩ := h
  obtain ⟨parent, isDep⟩ := asks rfl
  have last : p ∈ (opened rest).head? := parent.symm
  rcases reflTransGen_iff_eq_or_transGen.mp (below.path last hc) with rfl | path
  · exact .single (isDep p last)
  · exact path

/-! ### The order -/

/-- `c` will tell `p` that it is done. -/
def State.Waits (s : State T A R N) (c p : T) : Prop :=
  p ∈ s.parents c ∧ s.progress c ≠ .done ∧ s.progress c ≠ .semaphore

/-- The target waits for its semaphore with nothing else to wait for. -/
def State.Wakes (g : Graph T A R N) (s : State T A R N) (x : T) : Prop :=
  ∃ w, g.semaphore w = some x ∧ s.progress w = .active ∧ s.asynccnt w = 1 ∧
    ∃ f ∈ s.stack, f.t = w ∧ f.curstate = .make1b

/-- Each dependency is done, and fine or not cared for if the target is fine; or a semaphore; or it
depends on the target itself. -/
def State.Ready (g : Graph T A R N) (s : State T A R N) (p : T) : Prop :=
  ∀ c ∈ s.depends p,
    (s.progress c = .done ∧ (s.status p = .ok → g.nocare c = true ∨ s.status c = .ok)) ∨
      s.progress c = .semaphore ∨ (s.progress c ≠ .init ∧ TransGen (Dep s.depends) c p)

variable [DecidableEq T]

/-- `order` are the targets that are through with asking, in that order. -/
structure Ordered (g : Graph T A R N) (order : List T) (s : State T A R N) : Prop where
  nodup : (order ++ opened s.stack).Nodup
  visited : ∀ t, t ∈ order ++ opened s.stack ↔ s.progress t ≠ .init ∧ s.progress t ≠ .semaphore
  chained : Chained s.depends s.stack
  before : ∀ c p, s.Waits c p → Before (order ++ opened s.stack) c p
  asked : ∀ p ∈ order ++ opened s.stack, ∀ c ∈ s.depends p,
    ⟨c, some p, .make1a⟩ ∈ s.stack ∨ s.Waits c p ∨ s.progress c = .done ∨
      s.progress c = .semaphore ∨ (s.progress c ≠ .init ∧ TransGen (Dep s.depends) c p)
  ready : ∀ p, 1 ≤ work s.stack s.slots p ∨ s.progress p = .done → s.Ready g p
  queue : ∀ x, s.progress x = .semaphore → ∀ t ∈ s.parents x,
    s.progress t = .active ∧ s.asynccnt t = 1
  wakes : ∀ x, s.progress x = .semaphore →
    s.parents x = [] ∨ s.asynccnt x = 1 ∨ s.Wakes g x

variable {g : Graph T A R N} {waits : List (T × T)} {s s' : State T A R N}
  {order order' : List T}

theorem mem_opened : t ∈ opened stack ↔ 1 ≤ opens stack t := by
  rw [opens, Nat.succ_le_iff, List.countP_pos_iff, opened, List.mem_filterMap]
  refine exists_congr fun f => and_congr_right fun _ => ?_
  rw [decide_eq_true_eq, Frame.Opens]
  split <;> simp [*]

theorem Inv.mem_opened (h : Inv g waits s) : t ∈ opened s.stack ↔ s.progress t = .onstack := by
  have := h.accounts t
  rw [Make.mem_opened]
  cases hp : s.progress t <;> rw [hp] at this <;> simp only [Accounts] at this <;> simp <;> omega

/-- How far the targets are, as seen by those that depend on them. -/
structure Kept (s s' : State T A R N) : Prop where
  depends : s'.depends = s.depends
  parents : ∀ t, s.progress t ≠ .semaphore → s'.parents t = s.parents t
  init : ∀ t, s'.progress t = .init ↔ s.progress t = .init
  done : ∀ t, s'.progress t = .done ↔ s.progress t = .done
  semaphore : ∀ t, s'.progress t = .semaphore ↔ s.progress t = .semaphore

omit [DecidableEq T] in
theorem Kept.waits_iff (h : Kept s s') : s'.Waits c p ↔ s.Waits c p := by
  simp only [State.Waits, ne_eq, h.done, h.semaphore]
  by_cases hc : s.progress c = .semaphore
  · simp [hc]
  · rw [h.parents c hc]

omit [DecidableEq T] in
theorem State.Ready.congr (h : s.Ready g p) (depends : s'.depends = s.depends)
    (init : ∀ t, s'.progress t = .init → s.progress t = .init)
    (done : ∀ t, s.progress t = .done → s'.progress t = .done ∧ s'.status t = s.status t)
    (semaphore : ∀ t, s.progress t = .semaphore → s'.progress t = .semaphore)
    (status : s'.status p = .ok → s.status p = .ok) : s'.Ready g p := by
  intro c hc
  rw [depends] at hc ⊢
  rcases h c hc with ⟨isDone, fine⟩ | isSemaphore | ⟨old, path⟩
  · obtain ⟨isDone, same⟩ := done c isDone
    exact .inl ⟨isDone, fun ok => same ▸ fine (status ok)⟩
  · exact .inr (.inl (semaphore c isSemaphore))
  · exact .inr (.inr ⟨fun isInit => old (init c isInit), path⟩)

/-- A move after which each target is as far as before. -/
theorem Ordered.keep (h : Ordered g order s) (kept : Kept s s')
    (sameOrder : order' ++ opened s'.stack = order ++ opened s.stack)
    (chained : Chained s.depends s'.stack)
    (asks : ∀ c p, ⟨c, some p, .make1a⟩ ∈ s.stack → ⟨c, some p, .make1a⟩ ∈ s'.stack)
    (ready : ∀ p, 1 ≤ work s'.stack s'.slots p ∨ s.progress p = .done → s'.Ready g p)
    (queue : ∀ x, s.progress x = .semaphore → ∀ t ∈ s'.parents x,
      s'.progress t = .active ∧ s'.asynccnt t = 1)
    (wakes : ∀ x, s.progress x = .semaphore →
      s'.parents x = [] ∨ s'.asynccnt x = 1 ∨ s'.Wakes g x) : Ordered g order' s' where
  nodup := sameOrder ▸ h.nodup
  visited t := by
    rw [sameOrder, (kept.init t).ne, (kept.semaphore t).ne]
    exact h.visited t
  chained := kept.depends ▸ chained
  before c p hw := by
    rw [sameOrder]
    exact h.before c p (kept.waits_iff.mp hw)
  asked p hp c hc := by
    rw [sameOrder] at hp
    rw [kept.depends] at hc
    rw [kept.waits_iff, kept.done, kept.semaphore, (kept.init c).ne, kept.depends]
    exact (h.asked p hp c hc).imp_left (asks c p)
  ready p hp := ready p (hp.imp_right (kept.done p).mp)
  queue x hx := queue x ((kept.semaphore x).mp hx)
  wakes x hx := wakes x ((kept.semaphore x).mp hx)

/-- A move that changes only the stack and what the targets at work do. -/
theorem Ordered.move (h : Ordered g order s) (depends : s'.depends = s.depends)
    (progress : s'.progress = s.progress) (parents : s'.parents = s.parents)
    (asynccnt : s'.asynccnt = s.asynccnt) (sameOpened : opened s'.stack = opened s.stack)
    (chained : Chained s.depends s'.stack)
    (asks : ∀ c p, ⟨c, some p, .make1a⟩ ∈ s.stack → ⟨c, some p, .make1a⟩ ∈ s'.stack)
    (tells : ∀ f ∈ s.stack, f.curstate = .make1b → f ∈ s'.stack)
    (sameWork : ∀ p, work s'.stack s'.slots p = work s.stack s.slots p)
    (status : ∀ p, s'.status p = .ok → 1 ≤ work s.stack s.slots p ∨ s.progress p = .done →
      s.status p = .ok)
    (doneStatus : ∀ c, s.progress c = .done → s'.status c = s.status c) : Ordered g order s' := by
  have same : ∀ {q : Progress} t, s'.progress t = q ↔ s.progress t = q := by
    intro q t
    rw [progress]
  have kept : Kept s s' :=
    { depends, parents := fun t _ => by rw [parents], init := same, done := same,
      semaphore := same }
  refine h.keep kept (by rw [sameOpened]) chained asks (fun p hp => ?_) ?_ ?_
  · rw [sameWork] at hp
    exact (h.ready p hp).congr depends (fun t => (same t).mp)
      (fun t done => ⟨(same t).mpr done, doneStatus t done⟩) (fun t => (same t).mpr)
      fun ok => status p ok hp
  · rw [progress, parents, asynccnt]
    exact h.queue
  · rw [parents, asynccnt]
    intro x hx
    refine (h.wakes x hx).imp_right (Or.imp_right ?_)
    rintro ⟨w, own, active, one, f, hf, here, make1b⟩
    exact ⟨w, own, progress ▸ active, asynccnt ▸ one, f, tells f hf make1b, here, make1b⟩

/-! ### Turns -/

section Ask

theorem register_waits (s : State T A R N) (c c' p' : T) (par : Option T) :
    (s.register c par).Waits c' p' ↔ s.Waits c' p' ∨ (c' = c ∧ par = some p' ∧
      (s.progress c = .init ∨ s.progress c = .active ∨ s.progress c = .running)) := by
  rcases register_eq s c par with ⟨why, same⟩ | ⟨p, rfl, hc, registered⟩
  · rw [same]
    refine ⟨.inl, ?_⟩
    rintro (already | ⟨-, some, hc⟩)
    · exact already
    · rcases why with why | why | why | why <;> simp [why] at hc some
  · have live : s.progress c ≠ .done ∧ s.progress c ≠ .semaphore := by
      rcases hc with hc | hc | hc <;> simp [hc]
    rw [registered]
    simp only [State.Waits]
    by_cases same : c' = c
    · subst same
      simp [live, hc, eq_comm (a := p)]
    · simp [same]

theorem register_parents (hx : s.progress x = .semaphore) :
    (s.register c par).parents x = s.parents x := by
  rcases register_eq s c par with ⟨-, same⟩ | ⟨p, rfl, hc, registered⟩
  · rw [same]
  · rw [registered]
    refine Function.update_of_ne ?_ _ _
    rintro rfl
    simp [hx] at hc

/-- The parent is a target that asks. -/
theorem Ordered.parent (inv : Inv g waits s) (h : Ordered g order s)
    (top : s.stack = ⟨c, some p, .make1a⟩ :: rest) :
    p ∈ opened rest ∧ s.progress p = .onstack ∧ c ∈ s.depends p := by
  have chained := h.chained
  rw [top] at chained
  obtain ⟨parent, isDep⟩ := chained.1 rfl
  have last : p ∈ (opened rest).head? := parent.symm
  have asks : p ∈ opened rest := List.mem_of_mem_head? last
  refine ⟨asks, inv.mem_opened.mp ?_, isDep p last⟩
  rwa [top, opened_cons (by simp)]

theorem Ordered.register_asynccnt (inv : Inv g waits s) (h : Ordered g order s)
    (top : s.stack = ⟨c, par, .make1a⟩ :: rest) (ht : s.progress t ≠ .onstack) :
    (s.register c par).asynccnt t = s.asynccnt t := by
  rcases register_eq s c par with ⟨-, same⟩ | ⟨p, rfl, -, registered⟩
  · rw [same]
  · rw [registered]
    refine Function.update_of_ne ?_ _ _
    rintro rfl
    exact ht (h.parent inv top).2.1

/-- What is asked for again is waited for, unless it is done, a semaphore, or depends on the target
that asks. -/
theorem Ordered.pass (inv : Inv g waits s) (h : Ordered g order s)
    (top : s.stack = ⟨c, par, .make1a⟩ :: rest) (old : s.progress c ≠ .init) :
    Ordered g order { s.register c par with stack := rest } := by
  have below : opened s.stack = opened rest := by rw [top, opened_cons (by simp)]
  have chained := h.chained
  rw [top] at chained
  obtain ⟨parents, asynccnt, same⟩ := register_same s c par
  have progress : (s.register c par).progress = s.progress := by rw [same]
  have status : (s.register c par).status = s.status := by rw [same]
  have depends : (s.register c par).depends = s.depends := by rw [same]
  have slots : (s.register c par).slots = s.slots := by rw [same]
  have noted : ∀ c' p', State.Waits { s.register c par with stack := rest } c' p' ↔ _ :=
    fun c' p' => register_waits s c c' p' par
  refine
    { nodup := below ▸ h.nodup, visited := ?_, chained := ?_, before := ?_, asked := ?_,
      ready := ?_, queue := ?_, wakes := ?_ }
  · dsimp only
    rw [← below, progress]
    exact h.visited
  · dsimp only
    rw [depends]
    exact chained.2.2
  · intro c' p' hw
    dsimp only
    rw [← below]
    rcases (noted c' p').mp hw with hw | ⟨rfl, rfl, hc⟩
    · exact h.before c' p' hw
    · -- the target is through with asking, the parent is not
      obtain ⟨asks, -⟩ := h.parent inv top
      have through : c' ∈ order := by
        have visited : c' ∈ order ++ opened s.stack := (h.visited c').mpr <| by
          rcases hc with hc | hc | hc <;> simp [hc] at old ⊢
        rcases List.mem_append.mp visited with through | opened
        · exact through
        · have := inv.mem_opened.mp opened
          rcases hc with hc | hc | hc <;> simp [hc] at this
      exact (List.singleton_sublist.mpr through).append (List.singleton_sublist.mpr (below ▸ asks))
  · intro p' hp' c' hc'
    dsimp only at hp' hc' ⊢
    rw [← below] at hp'
    rw [depends] at hc'
    rw [noted, depends, progress]
    rcases h.asked p' hp' c' hc' with asks | rest'
    · rw [top] at asks
      rcases List.mem_cons.mp asks with here | there
      · obtain ⟨rfl, rfl⟩ : c' = c ∧ some p' = par := by simpa using here
        rcases register_eq s c' (some p') with ⟨none | back | settled, -⟩ | ⟨p, hp, hc, -⟩
        · cases none
        · refine .inr (.inr (.inr (.inr ⟨old, chained.back ?_⟩)))
          exact below ▸ inv.mem_opened.mpr back
        · exact .inr (.inr (settled.imp_right .inl))
        · exact .inr (.inl (.inr ⟨rfl, rfl, hc⟩))
      · exact .inl there
    · exact .inr (rest'.imp_left .inl)
  · intro p' hp' c' hc'
    dsimp only at hp' hc' ⊢
    rw [slots, progress] at hp'
    rw [depends] at hc'
    rw [depends, progress, status]
    refine h.ready p' (hp'.imp_left fun hw => ?_) c' hc'
    simpa [top] using hw
  · intro x hx t ht
    dsimp only at hx ht ⊢
    rw [progress] at hx
    rw [register_parents hx] at ht
    obtain ⟨active, one⟩ := h.queue x hx t ht
    rw [progress, h.register_asynccnt inv top (by simp [active])]
    exact ⟨active, one⟩
  · intro x hx
    dsimp only at hx ⊢
    rw [progress] at hx
    rw [register_parents hx, h.register_asynccnt inv top (by simp [hx])]
    refine (h.wakes x hx).imp_right (Or.imp_right ?_)
    rintro ⟨w, own, active, one, f, hf, here, make1b⟩
    refine ⟨w, own, progress ▸ active, ?_, f, ?_, here, make1b⟩
    · rw [← one]
      exact h.register_asynccnt inv top (by simp [active])
    · rw [top] at hf
      rcases List.mem_cons.mp hf with rfl | hf
      · cases make1b
      · exact hf

/-- A target asks for its dependencies: it will be through with that before all that ask now. -/
theorem Ordered.expand (inv : Inv g waits s) (h : Ordered g order s)
    (top : s.stack = ⟨c, par, .make1a⟩ :: rest) (fresh : s.progress c = .init) (new : List T)
    (more : s.depends c ⊆ new) :
    Ordered g order { s.register c par with
      asynccnt := update (s.register c par).asynccnt c 1
      depends := update s.depends c new
      progress := update s.progress c .onstack
      stack := new.map (fun d => ⟨d, some c, .make1a⟩) ++ ⟨c, par, .make1atail⟩ :: rest } := by
  have below : opened s.stack = opened rest := by rw [top, opened_cons (by simp)]
  have here : opened (new.map (fun d => (⟨d, some c, .make1a⟩ : Frame T)) ++
      ⟨c, par, .make1atail⟩ :: rest) = c :: opened rest := by
    rw [opened_append, opened_make1atail]
    intro f hf
    obtain ⟨d, -, rfl⟩ := List.mem_map.mp hf
    simp
  have absent : c ∉ order ++ opened rest := by
    rw [← below, h.visited]
    simp [fresh]
  have sub : ∀ t, s.depends t ⊆ update s.depends c new t := by
    intro t
    by_cases same : t = c
    · subst same
      simpa using more
    · simp [Function.update_of_ne same]
  have longer : (order ++ opened rest).Sublist (order ++ c :: opened rest) :=
    (List.Sublist.refl order).append (List.sublist_cons_self c _)
  have deeper : ∀ {a b}, TransGen (Dep s.depends) a b →
      TransGen (Dep (update s.depends c new)) a b := by
    intro a b path
    have mono : Dep s.depends ≤ Dep (update s.depends c new) := fun a b dep => sub a dep
    exact TransGen.mono mono a b path
  obtain ⟨parents, asynccnt, same⟩ := register_same s c par
  have progress : (s.register c par).progress = s.progress := by rw [same]
  have status : (s.register c par).status = s.status := by rw [same]
  have slots : (s.register c par).slots = s.slots := by rw [same]
  have started : ∀ t, update s.progress c .onstack t ≠ .init ↔ t = c ∨ s.progress t ≠ .init := by
    intro t
    by_cases same : t = c <;> simp [same]
  have settled : ∀ {q : Progress}, q ≠ .onstack → q ≠ .init → ∀ t,
      (update s.progress c .onstack t = q ↔ s.progress t = q) := by
    intro q notOnstack notInit t
    by_cases same : t = c
    · subst same
      simp [fresh, notOnstack.symm, notInit.symm]
    · simp [Function.update_of_ne same]
  have isDone := settled (q := .done) (by simp) (by simp)
  have isSemaphore := settled (q := .semaphore) (by simp) (by simp)
  have isActive := settled (q := .active) (by simp) (by simp)
  have noted : ∀ c' p', State.Waits { s.register c par with
      asynccnt := update (s.register c par).asynccnt c 1
      depends := update s.depends c new
      progress := update s.progress c .onstack
      stack := new.map (fun d => ⟨d, some c, .make1a⟩) ++ ⟨c, par, .make1atail⟩ :: rest } c' p' ↔
      s.Waits c' p' ∨ (c' = c ∧ par = some p') := by
    intro c' p'
    have := register_waits s c c' p' par
    simp only [State.Waits, ne_eq, progress, fresh] at this ⊢
    rw [isDone, isSemaphore, this]
    simp
  have samework : ∀ t, work (new.map (fun d => (⟨d, some c, .make1a⟩ : Frame T)) ++
      ⟨c, par, .make1atail⟩ :: rest) s.slots t = work s.stack s.slots t := by
    intro t
    have none : (new.map fun d => (⟨d, some c, .make1a⟩ : Frame T)).countP (Frame.Works t) = 0 := by
      simp [List.countP_eq_zero]
    rw [top]
    simp [work, List.countP_append, none]
  refine
    { nodup := ?_, visited := ?_, chained := ?_, before := ?_, asked := ?_, ready := ?_,
      queue := ?_, wakes := ?_ }
  · dsimp only
    rw [here]
    exact (List.nodup_middle).mpr (List.nodup_cons.mpr ⟨absent, below ▸ h.nodup⟩)
  · intro t
    have visited := h.visited t
    rw [below, List.mem_append] at visited
    dsimp only
    rw [here, started, (isSemaphore t).ne, List.mem_append, List.mem_cons]
    by_cases same : t = c
    · subst same
      simp [fresh]
    · simpa [same] using visited
  · have chained := h.chained
    rw [top] at chained
    obtain ⟨asks, -, chained⟩ := chained
    refine chained_asked (fun d hd => by simpa using hd) ⟨by simp, fun _ p hp => ?_, ?_⟩
    · exact sub p ((asks rfl).2 p hp)
    · exact chained.mono sub
  · intro c' p' hw
    dsimp only
    rw [here]
    rcases (noted c' p').mp hw with hw | ⟨rfl, rfl⟩
    · exact List.Sublist.trans (below ▸ h.before c' p' hw) longer
    · obtain ⟨asks, -⟩ := h.parent inv top
      exact List.Sublist.trans (before_cons c' asks) (List.sublist_append_right order _)
  · intro p' hp' c' hc'
    dsimp only at hp' hc' ⊢
    rw [here] at hp'
    by_cases same : p' = c
    · subst same
      rw [Function.update_self] at hc'
      exact .inl (List.mem_append_left _ (List.mem_map.mpr ⟨c', hc', rfl⟩))
    · rw [Function.update_of_ne same] at hc'
      have hp' : p' ∈ order ++ opened s.stack := by simpa [below, same] using hp'
      rw [noted, isDone, isSemaphore, started]
      rcases h.asked p' hp' c' hc' with asks | waits | done | semaphore | ⟨old, path⟩
      · rw [top] at asks
        rcases List.mem_cons.mp asks with this | asks
        · obtain ⟨rfl, rfl⟩ : c' = c ∧ some p' = par := by simpa using this
          exact .inr (.inl (.inr ⟨rfl, rfl⟩))
        · exact .inl (List.mem_append_right _ (List.mem_cons_of_mem _ asks))
      · exact .inr (.inl (.inl waits))
      · exact .inr (.inr (.inl done))
      · exact .inr (.inr (.inr (.inl semaphore)))
      · exact .inr (.inr (.inr (.inr ⟨.inr old, deeper path⟩)))
  · intro p' hp' c' hc'
    dsimp only at hp' hc' ⊢
    rw [slots, samework, isDone] at hp'
    have other : p' ≠ c := by
      rintro rfl
      have := inv.accounts p'
      simp only [fresh, Accounts] at this
      rcases hp' with hp' | hp'
      · omega
      · simp [fresh] at hp'
    rw [Function.update_of_ne other] at hc'
    rw [isDone, isSemaphore, started, status]
    rcases h.ready p' hp' c' hc' with done | semaphore | ⟨old, path⟩
    · exact .inl done
    · exact .inr (.inl semaphore)
    · exact .inr (.inr ⟨.inr old, deeper path⟩)
  · intro x hx t ht
    dsimp only at hx ht ⊢
    rw [isSemaphore] at hx
    rw [register_parents hx] at ht
    obtain ⟨active, one⟩ := h.queue x hx t ht
    have other : t ≠ c := by
      rintro rfl
      simp [fresh] at active
    rw [isActive, Function.update_of_ne other, h.register_asynccnt inv top (by simp [active])]
    exact ⟨active, one⟩
  · intro x hx
    dsimp only at hx ⊢
    rw [isSemaphore] at hx
    have other : x ≠ c := by
      rintro rfl
      simp [fresh] at hx
    rw [register_parents hx, Function.update_of_ne other,
      h.register_asynccnt inv top (by simp [hx])]
    refine (h.wakes x hx).imp_right (Or.imp_right ?_)
    rintro ⟨w, own, active, one, f, hf, here, make1b⟩
    have other : w ≠ c := by
      rintro rfl
      simp [fresh] at active
    refine ⟨w, own, (isActive w).mpr active, ?_, f, ?_, here, make1b⟩
    · dsimp only
      rw [Function.update_of_ne other, h.register_asynccnt inv top (by simp [active]), one]
    · rw [top] at hf
      rcases List.mem_cons.mp hf with rfl | hf
      · cases make1b
      · exact List.mem_append_right _ (List.mem_cons_of_mem _ hf)

end Ask

section Work

omit [DecidableEq T] in
theorem mem_below {f' : Frame T} (h : f' ∈ f :: rest) (ne : f'.curstate ≠ f.curstate) :
    f' ∈ rest := by
  rcases List.mem_cons.mp h with rfl | h
  · exact absurd rfl ne
  · exact h

theorem Ordered.below (h : Ordered g order s) (top : s.stack = f :: rest) :
    Chained s.depends rest := by
  have chained := h.chained
  rw [top] at chained
  exact chained.2.2

/-- A target with a state `make1b` waits in no queue. -/
theorem Ordered.notQueued (inv : Inv g waits s) (h : Ordered g order s)
    (top : s.stack = ⟨t, par, .make1b⟩ :: rest) (hx : s.progress x = .semaphore) :
    t ∉ s.parents x := by
  intro ht
  obtain ⟨-, one⟩ := h.queue x hx t ht
  have inQueue : 0 < queued g s.parents t := by
    simpa [queued, inv.queue x hx t ht, List.count_pos_iff] using ht
  have owes : 1 ≤ owed g waits s.stack s.parents t :=
    owed_pos (top ▸ List.mem_cons_self) (holds_mk.mpr ⟨rfl, .inr rfl⟩)
  have count := (inv.waiting owes).2.2
  rw [one, owed, top] at count
  simp at count
  omega

/-- A target is through with asking. -/
theorem Ordered.tail (inv : Inv g waits s) (h : Ordered g order s)
    (top : s.stack = ⟨t, par, .make1atail⟩ :: rest) :
    Ordered g (order ++ [t]) { s with
      progress := update s.progress t .active
      stack := ⟨t, par, .make1b⟩ :: rest } := by
  have onstack : s.progress t = .onstack := inv.mem_opened.mp (by simp [top])
  have settled : ∀ {q : Progress}, q ≠ .onstack → q ≠ .active → ∀ t',
      update s.progress t .active t' = q ↔ s.progress t' = q := by
    intro q notOnstack notActive t'
    by_cases same : t' = t
    · subst same
      simp [onstack, notOnstack.symm, notActive.symm]
    · simp [Function.update_of_ne same]
  have active : ∀ {t'}, s.progress t' = .active → update s.progress t .active t' = .active := by
    intro t' hp
    have other : t' ≠ t := by
      rintro rfl
      simp [onstack] at hp
    rwa [Function.update_of_ne other]
  have kept : Kept s { s with
      progress := update s.progress t .active
      stack := ⟨t, par, .make1b⟩ :: rest } :=
    { depends := rfl, parents := fun _ _ => rfl, init := settled (by simp) (by simp),
      done := settled (by simp) (by simp), semaphore := settled (by simp) (by simp) }
  refine h.keep kept ?_ ⟨by simp, by simp, h.below top⟩ (fun c p asks => ?_) (fun p hp => ?_)
    (fun x hx t' ht' => ?_) fun x hx => ?_
  · rw [top, opened_make1atail, opened_cons (by simp), List.append_assoc, List.singleton_append]
  · exact List.mem_cons_of_mem _ (mem_below (top ▸ asks) (by simp))
  · refine (h.ready p (hp.imp_left fun hw => ?_)).congr rfl (fun t => (kept.init t).mp)
      (fun t done => ⟨(kept.done t).mpr done, rfl⟩) (fun t => (kept.semaphore t).mpr) id
    simpa [top] using hw
  · exact (h.queue x hx t' ht').imp_left active
  · refine (h.wakes x hx).imp_right (Or.imp_right ?_)
    rintro ⟨w, own, hp, one, f, hf, here, make1b⟩
    exact ⟨w, own, active hp, one, f,
      List.mem_cons_of_mem _ (mem_below (top ▸ hf) (by simp [make1b])), here, make1b⟩

/-- One token less. -/
theorem Ordered.drop (inv : Inv g waits s) (h : Ordered g order s)
    (top : s.stack = ⟨t, par, .make1b⟩ :: rest) (more : s.asynccnt t ≠ 1) :
    Ordered g order { s with
      asynccnt := update s.asynccnt t (s.asynccnt t - 1)
      stack := rest } := by
  have owes : 1 ≤ owed g waits s.stack s.parents t :=
    owed_pos (top ▸ List.mem_cons_self) (holds_mk.mpr ⟨rfl, .inr rfl⟩)
  refine h.keep ⟨rfl, fun _ _ => rfl, fun _ => .rfl, fun _ => .rfl, fun _ => .rfl⟩ ?_ (h.below top)
    (fun c p asks => mem_below (top ▸ asks) (by simp)) (fun p hp => ?_)
    (fun x hx t' ht' => ?_) fun x hx => ?_
  · rw [top, opened_cons (by simp)]
  · refine h.ready p (hp.imp_left fun hw => ?_)
    simpa [top] using hw
  · have other : t' ≠ t := by
      rintro rfl
      exact h.notQueued inv top hx ht'
    dsimp only
    rw [Function.update_of_ne other]
    exact h.queue x hx t' ht'
  · have other : x ≠ t := by
      rintro rfl
      simpa [hx] using (inv.waiting owes).1
    dsimp only
    rw [Function.update_of_ne other]
    refine (h.wakes x hx).imp_right (Or.imp_right ?_)
    rintro ⟨w, own, active, one, f, hf, here, make1b⟩
    have other : w ≠ t := by
      rintro rfl
      exact more one
    refine ⟨w, own, active, ?_, f, ?_, here, make1b⟩
    · dsimp only
      rw [Function.update_of_ne other, one]
    · rcases List.mem_cons.mp (top ▸ hf) with rfl | hf
      · exact absurd here.symm other
      · exact hf

/-- A target waits for its semaphore, which another target holds. -/
theorem Ordered.enqueue (inv : Inv g waits s) (h : Ordered g order s)
    (top : s.stack = ⟨t, par, .make1b⟩ :: rest) (one : s.asynccnt t = 1)
    (own : g.semaphore t = some x) (held : s.asynccnt x ≠ 0) :
    Ordered g order { s with
      parents := update s.parents x (s.parents x ++ [t])
      stack := rest } := by
  have isSemaphore := inv.semaphore t x own
  have kept : Kept s { s with
      parents := update s.parents x (s.parents x ++ [t])
      stack := rest } := by
    refine ⟨rfl, fun t' ht' => Function.update_of_ne ?_ _ _, fun _ => .rfl, fun _ => .rfl,
      fun _ => .rfl⟩
    rintro rfl
    exact ht' isSemaphore
  refine h.keep kept ?_ (h.below top) (fun c p asks => mem_below (top ▸ asks) (by simp))
    (fun p hp => ?_) (fun y hy t' ht' => ?_) fun y hy => ?_
  · rw [top, opened_cons (by simp)]
  · refine (h.ready p (hp.imp_left fun hw => ?_))
    simpa [top] using hw
  · dsimp only at ht' ⊢
    by_cases same : y = x
    · subst same
      rw [Function.update_self, List.mem_append, List.mem_singleton] at ht'
      rcases ht' with ht' | rfl
      · exact h.queue y hy t' ht'
      · exact ⟨inv.last top one, one⟩
    · rw [Function.update_of_ne same] at ht'
      exact h.queue y hy t' ht'
  · dsimp only
    by_cases same : y = x
    · subst same
      rcases inv.locks y hy with ⟨zero, -⟩ | ⟨one, -⟩
      · exact absurd zero held
      · exact .inr (.inl one)
    · rw [Function.update_of_ne same]
      refine (h.wakes y hy).imp_right (Or.imp_right ?_)
      rintro ⟨w, own', active, one, f, hf, here, make1b⟩
      refine ⟨w, own', active, one, f, ?_, here, make1b⟩
      rcases List.mem_cons.mp (top ▸ hf) with rfl | hf
      · subst here
        exact absurd (Option.some.inj (own'.symm.trans own)) same
      · exact hf

omit [DecidableEq T] in
/-- A state `make1a` stands above the target that asks. -/
theorem Chained.asks (h : Chained depends stack) (asks : ⟨c, some p, .make1a⟩ ∈ stack) :
    p ∈ opened stack := by
  induction stack with
  | nil => cases asks
  | cons f rest ih =>
    obtain ⟨first, -, below⟩ := h
    have later : p ∈ opened rest → p ∈ opened (f :: rest) := by
      by_cases hf : f.curstate = .make1atail
      · have cons : opened (f :: rest) = f.t :: opened rest := by simp [opened, hf]
        rw [cons]
        exact List.mem_cons_of_mem _
      · rw [opened_cons hf]
        exact id
    rcases List.mem_cons.mp asks with rfl | asks
    · exact later (List.mem_of_mem_head? (first rfl).1.symm)
    · exact later (ih below asks)

/-- A target whose last token is used up finds its dependencies done. -/
theorem Ordered.last (inv : Inv g waits s) (h : Ordered g order s)
    (top : s.stack = ⟨t, par, .make1b⟩ :: rest) (one : s.asynccnt t = 1) (hc : c ∈ s.depends t) :
    s.progress c = .done ∨ s.progress c = .semaphore ∨
      (s.progress c ≠ .init ∧ TransGen (Dep s.depends) c t) := by
  have active := inv.last top one
  have visited : t ∈ order ++ opened s.stack := (h.visited t).mpr (by simp [active])
  rcases h.asked t visited c hc with asks | ⟨isParent, notDone, notSemaphore⟩ | settled
  · have opens := inv.mem_opened.mp (h.chained.asks asks)
    simp [active] at opens
  · -- the dependency would be another token
    have pair : 0 < waits.count (c, t) := by
      rw [inv.waits]
      simpa [notDone, notSemaphore, List.count_pos_iff] using isParent
    have counted : waits.count (c, t) ≤ waits.countP fun w => w.2 = t :=
      List.countP_mono_left fun w _ same => by
        obtain rfl := eq_of_beq same
        simp
    have owes : 1 ≤ owed g waits s.stack s.parents t :=
      owed_pos (top ▸ List.mem_cons_self) (holds_mk.mpr ⟨rfl, .inr rfl⟩)
    have count := (inv.waiting owes).2.2
    rw [one, owed, top] at count
    simp at count
    omega
  · exact settled

/-- A target starts its work. -/
theorem Ordered.start (inv : Inv g waits s) (h : Ordered g order s)
    (top : s.stack = ⟨t, par, .make1b⟩ :: rest) (one : s.asynccnt t = 1)
    (free : ∀ x, g.semaphore t = some x → s.asynccnt x = 0) (started : Started g t s s')
    (stack : s'.stack = ⟨t, par, .make1c⟩ :: rest) : Ordered g order s' := by
  have active := inv.last top one
  have others : ∀ {t'}, t' ≠ t → ∀ {q : Progress}, s'.progress t' = q ↔ s.progress t' = q := by
    intro t' ne q
    rw [started.progress t' ne]
  have settled : ∀ {q : Progress}, q ≠ .active → q ≠ .running → ∀ t',
      s'.progress t' = q ↔ s.progress t' = q := by
    intro q notActive notRunning t'
    by_cases same : t' = t
    · subst same
      rcases started.prepared with ⟨same, -⟩ | ⟨running, -⟩
      · rw [same]
      · simp [active, running, notActive.symm, notRunning.symm]
    · exact others same
  have kept : Kept s s' :=
    { depends := started.depends, parents := fun _ _ => by rw [started.parents]
      init := settled (by simp) (by simp), done := settled (by simp) (by simp)
      semaphore := settled (by simp) (by simp) }
  have doneStatus : ∀ {c}, s.progress c = .done → s'.status c = s.status c := by
    intro c done
    apply started.status c
    rintro rfl
    simp [active] at done
  have count : ∀ {t'}, s.progress t' ≠ .semaphore → t' ≠ t → s'.asynccnt t' = s.asynccnt t' := by
    intro t' plain ne
    have notOwn : g.semaphore t ≠ some t' := fun own => plain (inv.semaphore t t' own)
    rw [started.asynccnt, if_neg ne, if_neg notOwn, add_zero]
  refine h.keep kept ?_ (stack ▸ ⟨by simp, by simp, h.below top⟩) (fun c p asks => ?_)
    (fun p hp => ?_) (fun x hx t' ht' => ?_) fun x hx => ?_
  · rw [stack, top, opened_cons (by simp), opened_cons (by simp)]
  · rw [stack]
    exact List.mem_cons_of_mem _ (mem_below (top ▸ asks) (by simp))
  · by_cases same : p = t
    · subst same
      intro c hc
      rw [started.depends] at hc ⊢
      rcases h.last inv top one hc with done | semaphore | ⟨old, path⟩
      · refine .inl ⟨(kept.done c).mpr done, fun ok => ?_⟩
        rw [doneStatus done]
        exact (started.inherits ok).2 c hc
      · exact .inr (.inl ((kept.semaphore c).mpr semaphore))
      · exact .inr (.inr ⟨(kept.init c).ne.mpr old, path⟩)
    · refine (h.ready p (hp.imp_left fun hw => ?_)).congr started.depends
        (fun t => (kept.init t).mp) (fun t done => ⟨(kept.done t).mpr done, doneStatus done⟩)
        (fun t => (kept.semaphore t).mpr) (started.status p same ▸ id)
      simpa [stack, started.slots, top, Ne.symm same] using hw
  · rw [started.parents] at ht'
    have other : t' ≠ t := by
      rintro rfl
      exact h.notQueued inv top hx ht'
    obtain ⟨active, one⟩ := h.queue x hx t' ht'
    rw [others other, count (by simp [active]) other]
    exact ⟨active, one⟩
  · have plain : x ≠ t := by
      rintro rfl
      simp [active] at hx
    by_cases own : g.semaphore t = some x
    · -- the target holds the semaphore from now on
      refine .inr (.inl ?_)
      rw [started.asynccnt, if_neg plain, if_pos own, free x own, zero_add]
    · rw [started.parents, started.asynccnt, if_neg plain, if_neg own, add_zero]
      refine (h.wakes x hx).imp_right (Or.imp_right ?_)
      rintro ⟨w, own', active, one, f, hf, here, make1b⟩
      have other : w ≠ t := by
        rintro rfl
        exact own own'
      refine ⟨w, own', (others other).mpr active, ?_, f, ?_, here, make1b⟩
      · rw [count (by simp [active]) other, one]
      · rw [stack]
        rcases List.mem_cons.mp (top ▸ hf) with rfl | hf
        · exact absurd here.symm other
        · exact List.mem_cons_of_mem _ hf

theorem Ordered.launch (h : Ordered g order s) (top : s.stack = ⟨t, par, .make1c⟩ :: rest) :
    Ordered g order { s with stack := rest, slots := s.slots ++ [t] } := by
  refine h.move rfl rfl rfl rfl ?_ (h.below top)
    (fun c p asks => mem_below (top ▸ asks) (by simp))
    (fun f hf make1b => mem_below (top ▸ hf) (by simp [make1b])) (fun p => ?_)
    (fun _ ok _ => ok) fun _ _ => rfl
  · rw [top, opened_cons (by simp)]
  · rw [top]
    simp [work, List.count_append, List.count_singleton, List.countP_cons]
    omega

theorem Ordered.pretend {status : Status} (h : Ordered g order s)
    (top : s.stack = ⟨t, par, .make1c⟩ :: rest) :
    Ordered g order { s with stack := ⟨t, par, .make1d status⟩ :: rest } := by
  refine h.move rfl rfl rfl rfl ?_ ⟨by simp, by simp, h.below top⟩
    (fun c p asks => List.mem_cons_of_mem _ (mem_below (top ▸ asks) (by simp)))
    (fun f hf make1b => List.mem_cons_of_mem _ (mem_below (top ▸ hf) (by simp [make1b])))
    (fun p => by simp [top]) (fun _ ok _ => ok) fun _ _ => rfl
  rw [top, opened_cons (by simp), opened_cons (by simp)]

theorem Ordered.closure {status : Status} (h : Ordered g order s) (ht : t ∈ s.slots) :
    Ordered g order (s.closure (t, status)) := by
  refine h.move rfl rfl rfl rfl ?_ ⟨by simp, by simp, h.chained⟩
    (fun c p => List.mem_cons_of_mem _) (fun f hf _ => List.mem_cons_of_mem _ hf) (fun p => ?_)
    (fun _ ok _ => ok) fun _ _ => rfl
  · rw [State.closure, opened_cons (by simp)]
  · have some : 1 ≤ s.slots.count t := List.count_pos_iff.mpr ht
    simp only [State.closure, work, List.countP_cons, decide_eq_true_eq, works_mk]
    by_cases same : t = p
    · subst same
      simp
      omega
    · simp [same, List.count_erase_of_ne (Ne.symm same)]

/-- A command has ended. -/
theorem Ordered.ended {st : Status} (inv : Inv g waits s) (h : Ordered g order s)
    (top : s.stack = ⟨t, par, .make1d st⟩ :: rest) (status : Status) (others : List (Cmd R N)) :
    Ordered g order { s with
      status := update s.status t status
      cmds := update s.cmds t others
      stack := ⟨t, par, .make1c⟩ :: rest } := by
  obtain ⟨hp, -⟩ := inv.working (t := t) (by simp [top])
  have ok : s.status t = .ok :=
    (inv.command ⟨t, par, .make1d st⟩ (top ▸ List.mem_cons_self) st rfl).2
  refine h.move rfl rfl rfl rfl ?_ ⟨by simp, by simp, h.below top⟩
    (fun c p asks => List.mem_cons_of_mem _ (mem_below (top ▸ asks) (by simp)))
    (fun f hf make1b => List.mem_cons_of_mem _ (mem_below (top ▸ hf) (by simp [make1b])))
    (fun p => by simp [top]) (fun p hp _ => ?_) fun c done => Function.update_of_ne ?_ _ _
  · rw [top, opened_cons (by simp), opened_cons (by simp)]
  · by_cases same : p = t
    · rw [same, ok]
    · simpa [Function.update_of_ne same] using hp
  · rintro rfl
    simp [done] at hp

theorem Ordered.goal (h : Ordered g order s) (empty : s.stack = []) (goal : T) :
    Ordered g order { s with stack := [⟨goal, none, .make1a⟩] } := by
  refine h.move rfl rfl rfl rfl ?_ ⟨by simp, by simp, trivial⟩ (by simp [empty]) (by simp [empty])
    (fun p => by simp [empty]) (fun _ ok _ => ok) fun _ _ => rfl
  rw [empty, opened_cons (by simp)]

end Work

section Finish

omit [DecidableEq T] in
/-- States `make1b` on top. -/
theorem chained_told {told : List (Frame T)} (h : Chained depends rest)
    (tells : ∀ f ∈ told, f.curstate = .make1b) : Chained depends (told ++ rest) := by
  induction told with
  | nil => exact h
  | cons f told ih =>
    have make1b := tells f List.mem_cons_self
    exact ⟨by simp [make1b], by simp [make1b], ih fun f hf => tells f (List.mem_cons_of_mem _ hf)⟩

variable {woken : List (Frame T)}

/-- A target is done. -/
theorem Ordered.finish (inv : Inv g waits s) (h : Ordered g order s)
    (top : s.stack = ⟨t, par, .make1c⟩ :: rest) (finished : Finished g t s s' woken)
    (depends : s'.depends = s.depends)
    (stack : s'.stack = (s.parents t).map (fun c => ⟨c, none, .make1b⟩) ++ woken ++ rest) :
    Ordered g order s' := by
  obtain ⟨hp, atWork, -, -, zero⟩ := inv.working (t := t) (by simp [top])
  have old : s.progress t ≠ .init ∧ s.progress t ≠ .done ∧ s.progress t ≠ .semaphore := by
    rcases hp with hp | hp <;> simp [hp]
  have tells : ∀ f ∈ (s.parents t).map (fun c => (⟨c, none, .make1b⟩ : Frame T)) ++ woken,
      f.curstate = .make1b := by
    intro f hf
    rcases List.mem_append.mp hf with hf | hf
    · obtain ⟨c, -, rfl⟩ := List.mem_map.mp hf
      rfl
    · rcases finished.woken with ⟨rfl, -⟩ | ⟨x, first, others, -, -, -, rfl⟩
      · cases hf
      · rw [List.mem_singleton.mp hf]
  have sameOpened : opened s'.stack = opened s.stack := by
    rw [stack, top, opened_cons (by simp), opened_append]
    intro f hf
    simp [tells f hf]
  have progress : ∀ {t'}, t' ≠ t → s'.progress t' = s.progress t' := by
    intro t' ne
    rw [finished.progress, Function.update_of_ne ne]
  have doneHere : s'.progress t = .done := by rw [finished.progress, Function.update_self]
  have settled : ∀ {q : Progress}, s.progress t ≠ q → q ≠ .done → ∀ t',
      s'.progress t' = q ↔ s.progress t' = q := by
    intro q before notDone t'
    by_cases same : t' = t
    · subst same
      simp [doneHere, before, notDone.symm]
    · rw [progress same]
  have init := settled old.1 (by simp)
  have semaphore := settled old.2.2 (by simp)
  have done : ∀ t', s.progress t' = .done → s'.progress t' = .done := by
    intro t' before
    by_cases same : t' = t
    · rw [same, doneHere]
    · rwa [progress same]
  have parents : ∀ {t'}, s.progress t' ≠ .semaphore → s'.parents t' = s.parents t' := by
    intro t' plain
    rcases finished.woken with ⟨-, same, -⟩ | ⟨x, first, others, own, -, same, -⟩
    · rw [same]
    · rw [same, Function.update_of_ne]
      rintro rfl
      exact plain (inv.semaphore t t' own)
  have queueSub : ∀ x, s'.parents x ⊆ s.parents x := by
    intro x
    rcases finished.woken with ⟨-, same, -⟩ | ⟨y, first, others, -, queue, same, -⟩
    · rw [same]
      exact fun _ => id
    · rw [same]
      by_cases here : x = y
      · subst here
        rw [Function.update_self, queue]
        exact List.subset_cons_self _ _
      · rw [Function.update_of_ne here]
        exact fun _ => id
  have waits : ∀ {c p}, s'.Waits c p → s.Waits c p := by
    rintro c p ⟨isParent, notDone, notSemaphore⟩
    have other : c ≠ t := by
      rintro rfl
      exact notDone doneHere
    exact ⟨queueSub c isParent, progress other ▸ notDone, progress other ▸ notSemaphore⟩
  have asynccnt : ∀ {t'}, s.progress t' ≠ .semaphore → s'.asynccnt t' = s.asynccnt t' := by
    intro t' plain
    rw [finished.asynccnt, if_neg fun own => plain (inv.semaphore t t' own), sub_zero]
  have status : ∀ p, s'.status p = .ok → s.status p = .ok := by
    intro p ok
    by_cases same : p = t
    · subst same
      exact (finished.settled.mp ok).1
    · rwa [← finished.status p same]
  have sameWork : ∀ p, work s'.stack s'.slots p = work rest s.slots p := by
    intro p
    have none : ((s.parents t).map (fun c => (⟨c, none, .make1b⟩ : Frame T)) ++ woken).countP
        (Frame.Works p) = 0 := by
      rw [List.countP_eq_zero]
      intro f hf works
      rw [decide_eq_true_eq] at works
      exact works.2.2.2 (tells f hf)
    simp only [stack, finished.slots, work, List.countP_append, none, Nat.zero_add]
  refine
    { nodup := sameOpened ▸ h.nodup, visited := fun t' => ?_, chained := ?_,
      before := fun c p hw => sameOpened ▸ h.before c p (waits hw), asked := fun p hp c hc => ?_,
      ready := fun p hp => ?_, queue := fun x hx t' ht' => ?_, wakes := fun x hx => ?_ }
  · rw [sameOpened, (init t').ne, (semaphore t').ne]
    exact h.visited t'
  · rw [depends, stack]
    exact chained_told (h.below top) tells
  · rw [sameOpened] at hp
    rw [depends] at hc ⊢
    rw [semaphore, (init c).ne]
    rcases h.asked p hp c hc with asks | ⟨isParent, notDone, notSemaphore⟩ | isDone | settled
    · exact .inl (stack ▸ List.mem_append_right _ (mem_below (top ▸ asks) (by simp)))
    · by_cases same : c = t
      · exact .inr (.inr (.inl (same ▸ doneHere)))
      · exact .inr (.inl ⟨(parents notSemaphore).symm ▸ isParent, progress same ▸ notDone,
          progress same ▸ notSemaphore⟩)
    · exact .inr (.inr (.inl (done c isDone)))
    · exact .inr (.inr (.inr settled))
  · refine (h.ready p ?_).congr depends (fun t => (init t).mp) (fun c isDone => ⟨done c isDone, ?_⟩)
      (fun t => (semaphore t).mpr) (status p)
    · by_cases same : p = t
      · subst same
        exact .inl atWork.ge
      · rw [sameWork, progress same] at hp
        exact hp.imp_left fun hw => by simpa [top, Ne.symm same] using hw
    · apply finished.status c
      rintro rfl
      exact old.2.1 isDone
  · rw [semaphore] at hx
    obtain ⟨active, one⟩ := h.queue x hx t' (queueSub x ht')
    have other : t' ≠ t := by
      rintro rfl
      simp [zero] at one
    rw [progress other, asynccnt (by simp [active])]
    exact ⟨active, one⟩
  · rw [semaphore] at hx
    by_cases own : g.semaphore t = some x
    · rcases finished.woken with ⟨-, same, empty⟩ | ⟨y, first, others, own', queue, -, rfl⟩
      · exact .inl (same ▸ empty x own)
      · -- the first in the queue has its token back
        obtain rfl : x = y := Option.some.inj (own.symm.trans own')
        have first' : first ∈ s.parents x := queue ▸ List.mem_cons_self
        obtain ⟨active, one⟩ := h.queue x hx first first'
        have other : first ≠ t := by
          rintro rfl
          simp [zero] at one
        refine .inr (.inr ⟨first, inv.queue x hx first first', ?_, ?_, ⟨first, none, .make1b⟩, ?_,
          rfl, rfl⟩)
        · rwa [progress other]
        · rwa [asynccnt (by simp [active])]
        · rw [stack]
          simp
    · have same : s'.parents x = s.parents x := by
        rcases finished.woken with ⟨-, same, -⟩ | ⟨y, first, others, own', -, same, -⟩
        · rw [same]
        · rw [same, Function.update_of_ne]
          rintro rfl
          exact own own'
      rw [same, finished.asynccnt, if_neg own, sub_zero]
      refine (h.wakes x hx).imp_right (Or.imp_right ?_)
      rintro ⟨w, own', active, one, f, hf, here, make1b⟩
      have other : w ≠ t := by
        rintro rfl
        exact own own'
      refine ⟨w, own', ?_, ?_, f, ?_, here, make1b⟩
      · rwa [progress other]
      · rwa [asynccnt (by simp [active])]
      · rw [stack]
        exact List.mem_append_right _ (mem_below (top ▸ hf) (by simp [make1b]))

end Finish

/-! ### Runs -/

/-- The order does not speak of the other fields. -/
theorem Ordered.congr (h : Ordered g order s) (depends : s'.depends = s.depends)
    (progress : s'.progress = s.progress) (parents : s'.parents = s.parents)
    (asynccnt : s'.asynccnt = s.asynccnt) (status : s'.status = s.status)
    (stack : s'.stack = s.stack) (slots : s'.slots = s.slots) : Ordered g order s' := by
  refine h.move depends progress parents asynccnt (by rw [stack]) (by rw [stack]; exact h.chained)
    ?_ ?_ ?_ ?_ ?_
  all_goals simp +contextual only [stack, slots, status, implies_true]

variable [DecidableEq A] [DecidableEq R] [DecidableEq N]

theorem make1b_ordered (inv : Inv g waits s) (h : Ordered g order s)
    (top : s.stack = ⟨t, par, .make1b⟩ :: rest)
    (turn : s.make1b g false ⟨t, par, .make1b⟩ = .ok s') : Ordered g order s' := by
  have owes : 1 ≤ owed g waits s.stack s.parents t :=
    owed_pos (top ▸ List.mem_cons_self) (holds_mk.mpr ⟨rfl, .inr rfl⟩)
  obtain ⟨hp, -⟩ := inv.waiting owes
  have apart : ∀ x, g.semaphore t = some x → x ≠ t := fun x =>
    inv.ne_semaphore (by rcases hp with hp | hp <;> simp [hp])
  rcases make1b_cases top apart turn with
    ⟨more, rfl⟩ | ⟨one, x, own, held, rfl⟩ | ⟨one, free, started, stack⟩
  · exact h.drop inv top more
  · exact h.enqueue inv top one own held
  · exact h.start inv top one free started stack

omit [DecidableEq R] [DecidableEq N] in
theorem make1c_ordered (plain : ∀ t, g.headers t = none) (inv : Inv g waits s)
    (h : Ordered g order s) (top : s.stack = ⟨t, par, .make1c⟩ :: rest)
    (turn : s.make1c g false ⟨t, par, .make1c⟩ = .ok s') : Ordered g order s' := by
  rcases make1c_cases top turn with ⟨-, -, -, rfl⟩ | ⟨-, -, -, -, log, rfl⟩ | ⟨-, turn⟩
  · exact h.pretend top
  · exact (h.launch top).congr rfl rfl rfl rfl rfl rfl rfl
  · obtain ⟨asked, woken, finished, found, stack⟩ := finish_cases turn
    rw [top, List.tail_cons] at stack
    rcases found with ⟨rfl, depends⟩ | ⟨⟨r, inc, found⟩, -⟩
    · exact h.finish inv top finished depends stack
    · simp [plain r] at found

/-- **A turn of the loop** keeps the order. -/
theorem next_ordered (plain : ∀ t, g.headers t = none) (inv : Inv g waits s)
    (h : Ordered g order s) (calm : s.intr = false) (turn : s.next g = .ok s') :
    ∃ order', Ordered g order' s' := by
  unfold State.next at turn
  split at turn
  · rw [← Except.ok.inj turn]
    exact ⟨order, h⟩
  · next f rest top =>
    obtain ⟨t, par, curstate⟩ := f
    simp only [calm, Bool.false_eq_true, if_false] at turn
    cases curstate with
    | make1a =>
      rw [← Except.ok.inj turn]
      rcases make1a_cases top calm with ⟨old, turn⟩ | ⟨fresh, turn⟩
      · exact ⟨order, turn ▸ h.pass inv top old⟩
      · exact ⟨order, turn ▸ h.expand inv top fresh _ (List.subset_append_left _ _)⟩
    | make1atail =>
      rw [← Except.ok.inj turn, make1atail_eq top]
      exact ⟨_, h.tail inv top⟩
    | make1b => exact ⟨order, make1b_ordered inv h top turn⟩
    | make1c => exact ⟨order, make1c_ordered plain inv h top turn⟩
    | make1d status =>
      obtain ⟨cmd, others, log, intr, -, -, -, rfl⟩ := make1d_cases top turn
      exact ⟨order, (h.ended inv top _ others).congr rfl rfl rfl rfl rfl rfl rfl⟩

omit [DecidableEq A] [DecidableEq R] [DecidableEq N] in
theorem closures_ordered {ended : List (T × Status)} (h : Ordered g order s)
    (runs : (ended.map Prod.fst).Subperm s.slots) :
    Ordered g order (ended.foldl State.closure s) := by
  induction ended generalizing s with
  | nil => exact h
  | cons e ended ih =>
    obtain ⟨t, status⟩ := e
    have ht : t ∈ s.slots := runs.subset (by simp)
    apply ih (h.closure ht)
    have : (t :: ended.map Prod.fst).Subperm (t :: s.slots.erase t) :=
      runs.trans (List.perm_cons_erase ht).subperm
    exact (List.subperm_cons t).mp this

omit [DecidableEq A] [DecidableEq R] [DecidableEq N] in
theorem initial_ordered (h : Initial g s) : Ordered g [] s where
  nodup := by simp [h.stack]
  visited t := by
    rcases h.progress t with hp | hp <;> simp [h.stack, hp]
  chained := by
    rw [h.stack]
    trivial
  before c p hw := by simpa [h.parents] using hw.1
  asked := by simp [h.stack]
  ready p hp := by
    rcases hp with hp | hp
    · simp [work, h.stack, h.slots] at hp
    · rcases h.progress p with h | h <;> simp [h] at hp
  queue x _ t ht := by simp [h.parents] at ht
  wakes x _ := .inl (h.parents x)

/-- **The order holds in every state**, until an interrupt. -/
theorem Reachable.ordered (plain : ∀ t, g.headers t = none) (h : Reachable g s)
    (calm : s.intr = false) : ∃ waits order, Inv g waits s ∧ Ordered g order s := by
  induction h with
  | start initial => exact ⟨[], [], initial_inv initial, initial_ordered initial⟩
  | call goal _ empty _ ih =>
    obtain ⟨waits, order, inv, h⟩ := ih calm
    exact ⟨waits, order, (inv.goal empty goal).congr rfl rfl rfl rfl rfl rfl rfl,
      (h.goal empty goal).congr rfl rfl rfl rfl rfl rfl rfl⟩
  | step _ step ih =>
    cases step with
    | turn _ _ turn =>
      have before := next_intr turn calm
      obtain ⟨waits, order, inv, h⟩ := ih before
      obtain ⟨waits', inv'⟩ := next_inv inv before turn
      obtain ⟨order', h'⟩ := next_ordered plain inv h before turn
      exact ⟨waits', order', inv', h'⟩
    | wait _ _ runs =>
      obtain ⟨waits, order, inv, h⟩ := ih (by rwa [closures_intr] at calm)
      exact ⟨waits, order, closures_inv inv runs, closures_ordered h runs⟩

/-! ### The end -/

omit [DecidableEq A] [DecidableEq R] [DecidableEq N] in
/-- When nothing is at work, a target that is not done waits for another. -/
theorem Ordered.stuck (inv : Inv g waits s) (h : Ordered g order s) (empty : s.stack = [])
    (idle : s.slots = []) (started : s.progress t ≠ .init ∧ s.progress t ≠ .semaphore)
    (notDone : s.progress t ≠ .done) : ∃ c, s.Waits c t := by
  have accounts := inv.accounts t
  have owes : 1 ≤ owed g waits s.stack s.parents t := by
    cases hp : s.progress t <;> rw [hp] at accounts <;>
      simp [hp, Accounts, work, opens, empty, idle] at started notDone accounts ⊢
    omega
  simp only [owed, empty, List.countP_nil, Nat.zero_add] at owes
  rcases Nat.eq_zero_or_pos (queued g s.parents t) with zero | inQueue
  · have pair : 0 < waits.countP fun w => w.2 = t := by omega
    obtain ⟨⟨c, p⟩, hw, here⟩ := List.countP_pos_iff.mp pair
    obtain rfl : p = t := by simpa using here
    have count := inv.waits c p
    have some : 0 < waits.count (c, p) := List.count_pos_iff.mpr hw
    rw [count] at some
    split at some
    · omega
    · next live =>
      rw [not_or] at live
      exact ⟨c, List.count_pos_iff.mp some, live⟩
  · -- its semaphore would be held by a target at work
    obtain ⟨x, own, there⟩ : ∃ x, g.semaphore t = some x ∧ t ∈ s.parents x := by
      unfold queued at inQueue
      cases own : g.semaphore t with
      | none => simp [own] at inQueue
      | some x => exact ⟨x, rfl, by simpa [own, List.count_pos_iff] using inQueue⟩
    have isSemaphore := inv.semaphore t x own
    rcases h.wakes x isSemaphore with none | one | ⟨w, -, -, -, f, hf, -⟩
    · simp [none] at there
    · rcases inv.locks x isSemaphore with ⟨zero, -⟩ | ⟨-, t', -, works, -⟩
      · simp [one] at zero
      · simp [work, empty, idle] at works
    · simp [empty] at hf

/-- **Nobody waits in a circle**: when nothing is at work, all targets that have been asked for are
done, and so is what they depend on. -/
theorem all_done (plain : ∀ t, g.headers t = none) (h : Reachable g s) (calm : s.intr = false)
    (empty : s.stack = []) (idle : s.slots = []) (started : s.progress t ≠ .init)
    (isTarget : s.progress t ≠ .semaphore) :
    s.progress t = .done ∧ ∀ c ∈ s.depends t, s.progress c = .done ∨ s.progress c = .semaphore := by
  obtain ⟨waits, order, inv, ordered⟩ := h.ordered plain calm
  have visited := ordered.visited
  have nodup := ordered.nodup
  have before := ordered.before
  simp only [empty, opened_nil, List.append_nil] at visited nodup before
  have done : ∀ t ∈ order, s.progress t = .done := by
    by_contra some
    simp only [not_forall] at some
    obtain ⟨t, there, notDone⟩ := some
    -- the first of the targets that are not done has nothing to wait for
    have live : ∀ {t}, t ∈ order.filter (fun t => s.progress t ≠ .done) ↔
        t ∈ order ∧ s.progress t ≠ .done := by simp
    have acyclic : Acyclic s.Waits := fun a cycle =>
      (before_of_path nodup before cycle).asymm nodup (before_of_path nodup before cycle)
    obtain ⟨b, hb, first⟩ :=
      exists_source acyclic (List.ne_nil_of_mem (live.mpr ⟨there, notDone⟩))
    obtain ⟨hb, liveB⟩ := live.mp hb
    obtain ⟨c, hc⟩ := ordered.stuck inv empty idle ((visited b).mp hb) liveB
    exact first c (live.mpr ⟨(before c b hc).mem_left, hc.2.1⟩) hc
  have here := done t ((visited t).mpr ⟨started, isTarget⟩)
  refine ⟨here, fun c hc => ?_⟩
  by_cases hs : s.progress c = .semaphore
  · exact .inr hs
  · rcases ordered.ready t (.inr here) c hc with ⟨isDone, -⟩ | isSemaphore | ⟨old, -⟩
    · exact .inl isDone
    · exact .inr isSemaphore
    · exact .inl (done c ((visited c).mpr ⟨old, hs⟩))

end Make

end MapnikPackaging
