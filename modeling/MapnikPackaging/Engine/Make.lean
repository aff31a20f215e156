/-
`engine/make1.c`: the commands of a graph of targets, several at a time.

`make1` keeps a stack of states instead of recursing. A target is asked for (`make1a`), asks for
what it depends on, and then waits: `asynccnt` counts what it waits for, and `parents` is who waits
for it. At zero it takes its semaphore and its commands (`make1b`), runs them one after another
(`make1c`, `make1d`), and reports to its parents. Commands end in any order: `exec_cmd` waits while
all slots are taken, and the loop of `make1` once the stack is empty.

* `State.next` — what the loop does with the state on top of the stack.
* `Step` — one turn of the loop, or the end of some commands.
* `Reachable` — the states of `make`, which makes one goal after another.
* `State.play` — the run that is given by which command ends when.
-/

import MapnikPackaging.Engine.Commands
import Mathlib.Logic.Relation
import Mathlib.Data.List.Perm.Subperm
import Mathlib.Algebra.Order.Group.Int

namespace MapnikPackaging

namespace Make

/-! ### The state -/

/-- `EXEC_CMD_…` -/
inductive Status where
  | ok | fail | intr
deriving DecidableEq

def Status.val : Status → ℕ
  | ok => 0
  | fail => 1
  | intr => 2

def Status.worse (a b : Status) : Status := if a.val < b.val then b else a

/-- `T_MAKE_…` -/
inductive Progress where
  | init | onstack | active | running | done | semaphore
deriving DecidableEq

/-- `T_STATE_…`, with the status of `make1d`. -/
inductive Curstate where
  | make1a | make1atail | make1b | make1c
  | make1d (status : Status)
deriving DecidableEq

/-- `state` -/
structure Frame (T : Type) where
  t : T
  parent : Option T
  curstate : Curstate
deriving DecidableEq

structure Counts where
  failed : ℕ
  skipped : ℕ
  total : ℕ
  made : ℕ

/-- What the run leaves outside. -/
inductive Event (T R N : Type) where
  | launched (t : T) (cmd : Cmd R N)
  /-- Skipped for lack of a target; `none` stands for `dependencies`. -/
  | skipped (t : T) (lack : Option T)
  | removedOutdated (t : T)
  | failed (t : T) (cmd : Cmd R N)
  | unlinked (name : N)

/-- How the program ends early. -/
inductive Halt where
  | badFate | tooLong | noSlots | semaphoreBusy | noCommand | noParents

/-- The fields of `TARGET` and `ACTION` that `make1` writes, and its own variables. -/
structure State (T A R N : Type) where
  depends : T → List T
  includes : T → Option T
  rescanned : T → Bool
  progress : T → Progress
  status : T → Status
  asynccnt : T → ℤ
  parents : T → List T
  cmds : T → List (Cmd R N)
  /-- The name in `failed`; `none` stands for `dependencies`. -/
  failed : T → Option T
  running : A → Bool
  outcome : A → Status
  stack : List (Frame T)
  /-- The targets whose commands are in `cmdtab`. -/
  slots : List T
  counts : Counts
  /-- Whether `make1` has returned nonzero. -/
  result : Bool
  intr : Bool
  log : List (Event T R N)

variable {T A R N : Type} [DecidableEq T] [DecidableEq A] [DecidableEq R] [DecidableEq N]

open Function (update)
open Relation

namespace State

/-- `pop_state` -/
def pop (s : State T A R N) : State T A R N := { s with stack := s.stack.tail }

/-- Sets `curstate` of the state at work, which is on the stack unless it has been popped. -/
def goto (popped : Bool) (curstate : Curstate) (s : State T A R N) : State T A R N :=
  match popped, s.stack with
  | false, f :: rest => { s with stack := { f with curstate } :: rest }
  | _, _ => s

/-- Pushes states, the first of them on top. -/
def push (frames : List (Frame T)) (s : State T A R N) : State T A R N :=
  { s with stack := frames ++ s.stack }

/-- The parent arranges to be notified, unless the target is done or on the stack. -/
def register (t : T) (parent : Option T) (s : State T A R N) : State T A R N :=
  match parent, s.progress t with
  | some p, .init | some p, .active | some p, .running =>
    { s with
      parents := update s.parents t (s.parents t ++ [p])
      asynccnt := update s.asynccnt p (s.asynccnt p + 1) }
  | _, _ => s

/-- The nodes of included files that the build has created. -/
def newIncludes (t : T) (s : State T A R N) : List T :=
  (s.depends t).filterMap fun c => if s.rescanned c then s.includes c else none

def make1a (popped : Bool) (f : Frame T) (s : State T A R N) : State T A R N :=
  let t := f.t
  let s := s.register t f.parent
  if s.progress t ≠ .init then s.pop
  else
    let depends := s.depends t ++ s.newIncludes t
    let s := { s with
      asynccnt := update s.asynccnt t 1
      depends := update s.depends t depends
      progress := update s.progress t .onstack }
    let asked := if s.intr then [] else depends.map fun c => ⟨c, some t, .make1a⟩
    (s.goto popped .make1atail).push asked

def make1atail (popped : Bool) (f : Frame T) (s : State T A R N) : State T A R N :=
  { s with progress := update s.progress f.t .active }.goto popped .make1b

/-- The worst status of the dependencies that are cared for, and the last that made it worse. -/
def collect (g : Graph T A R N) (t : T) (s : State T A R N) : Option T × Status :=
  (s.depends t).foldl
    (fun worst c =>
      if worst.2.val < (s.status c).val ∧ g.nocare c = false then (some c, s.status c) else worst)
    (none, s.status t)

/-- The target takes over the failure of its dependencies. -/
def inherit (g : Graph T A R N) (t : T) (s : State T A R N) : State T A R N :=
  let worst := s.collect g t
  { s with
    status := update s.status t worst.2
    failed := update s.failed t
      (worst.1.bind fun c => if g.internal c then s.failed c else some c) }

/-- What is said and done about a target whose dependencies have failed. -/
def skip (g : Graph T A R N) (t : T) (s : State T A R N) : State T A R N :=
  if s.status t = .fail ∧ g.actions t ≠ [] then
    { s with
      counts := { s.counts with skipped := s.counts.skipped + 1 }
      log := s.log ++
        [if g.rmold t ∧ g.notfile t = false then .removedOutdated t
         else .skipped t (s.failed t)] }
  else s

/-- The fate decides whether there are commands to run. -/
def prepare (g : Graph T A R N) (t : T) (s : State T A R N) : Except Halt (State T A R N) :=
  if s.status t ≠ .ok then .ok s
  else match g.fate t with
    | .stable | .newer | .istmp => .ok s
    | .cantfind | .cantmake => .ok { s with status := update s.status t .fail }
    | .touched | .missing | .needtmp | .outdated | .update | .rebuild =>
      if g.actions t = [] then .ok s
      else match make1cmds g (g.actions t) s.running with
        | none => .error .tooLong
        | some (cmds, running) =>
          .ok { s with
            counts := { s.counts with total := s.counts.total + 1 }
            running
            cmds := update s.cmds t cmds
            progress := update s.progress t .running }
    | .init | .making => .error .badFate

/-- The target takes its semaphore. -/
def acquire (g : Graph T A R N) (t : T) (s : State T A R N) : State T A R N :=
  match g.semaphore t with
  | some x => { s with asynccnt := update s.asynccnt x (s.asynccnt x + 1) }
  | none => s

/-- The semaphore of the target, if another target holds it. -/
def busy (g : Graph T A R N) (t : T) (s : State T A R N) : Option T :=
  (g.semaphore t).filter fun x => s.asynccnt x ≠ 0

def make1b (g : Graph T A R N) (popped : Bool) (f : Frame T) (s : State T A R N) :
    Except Halt (State T A R N) :=
  let t := f.t
  let s := { s with asynccnt := update s.asynccnt t (s.asynccnt t - 1) }
  if s.asynccnt t ≠ 0 then .ok s.pop
  else match s.busy g t with
    | some x =>
      .ok { s with
        parents := update s.parents x (s.parents x ++ [t])
        asynccnt := update s.asynccnt t (s.asynccnt t + 1) }.pop
    | none => do
      let s ← ((s.inherit g t).skip g t).prepare g t
      return (s.acquire g t).goto popped .make1c

/-- `exec_cmd`, up to the wait for a free slot. -/
def execCmd (t : T) (cmd : Cmd R N) (s : State T A R N) : Except Halt (State T A R N) :=
  if s.slots.length < 64 then
    .ok { s with slots := s.slots ++ [t], log := s.log ++ [.launched t cmd] }
  else .error .noSlots

/-- The target and its actions come to the same status. -/
def settle (g : Graph T A R N) (t : T) (s : State T A R N) : State T A R N :=
  let status := (g.actions t).foldl (fun status a => status.worse (s.outcome a)) (s.status t)
  { s with
    status := update s.status t status
    outcome := fun a => if a ∈ g.actions t then (s.outcome a).worse status else s.outcome a }

def tally (t : T) (s : State T A R N) : State T A R N :=
  if s.progress t = .running then
    match s.status t with
    | .ok => { s with counts := { s.counts with made := s.counts.made + 1 } }
    | .fail => { s with counts := { s.counts with failed := s.counts.failed + 1 } }
    | .intr => s
  else s

/-- A target that has been made is scanned again for included files. The node of those found joins
the dependencies of all parents. -/
def rescan (g : Graph T A R N) (t : T) (s : State T A R N) :
    Except Halt (Option T × State T A R N) :=
  if Fate.missing.val ≤ (g.fate t).val ∧ s.status t = .ok ∧ s.rescanned t = false then
    let r := if g.internal t then g.originalTarget t else t
    let s := { s with
      rescanned := update s.rescanned t true
      includes := update s.includes r (g.headers r) }
    match g.headers r with
    | none => .ok (none, s)
    | some inc =>
      if s.parents r = [] then .error .noParents
      else .ok (some inc, { s with
        rescanned := update s.rescanned inc true
        depends := (s.parents r).foldl (fun d c => update d c (d c ++ [inc])) s.depends })
  else .ok (none, s)

/-- The target frees its semaphore and wakes the first that waits for it. -/
def release (g : Graph T A R N) (t : T) (s : State T A R N) :
    Except Halt (List (Frame T) × State T A R N) :=
  match g.semaphore t with
  | none => .ok ([], s)
  | some x =>
    if s.asynccnt x ≠ 1 then .error .semaphoreBusy
    else
      let s := { s with asynccnt := update s.asynccnt x (s.asynccnt x - 1) }
      match s.parents x with
      | [] => .ok ([], s)
      | first :: others =>
        .ok ([⟨first, none, .make1b⟩], { s with parents := update s.parents x others })

/-- The target is done: its parents are told. -/
def finish (g : Graph T A R N) (t : T) (s : State T A R N) : Except Halt (State T A R N) := do
  let s := (s.settle g t).tally t
  let s := { s with progress := update s.progress t .done }
  let (additional, s) ← s.rescan g t
  let asked : List (Frame T) := match additional with
    | none => []
    | some inc => (s.parents t).map fun c => ⟨inc, some c, .make1a⟩
  let told : List (Frame T) := (s.parents t).map fun c => ⟨c, none, .make1b⟩
  let (woken, s) ← s.release g t
  return s.pop.push (asked ++ told ++ woken)

def make1c (g : Graph T A R N) (popped : Bool) (f : Frame T) (s : State T A R N) :
    Except Halt (State T A R N) :=
  match s.cmds f.t, s.status f.t with
  | cmd :: _, .ok =>
    if g.noexec then .ok (s.goto popped (.make1d .ok)) else s.pop.execCmd f.t cmd
  | _, _ => s.finish g f.t

/-- The status of a command that has ended, by the target's and the rule's flags. -/
def ended (g : Graph T A R N) (t : T) (cmd : Cmd R N) (status : Status) : Status :=
  let status := match status, g.failExpected t with
    | .fail, true => .ok
    | .ok, true => .fail
    | status, _ => status
  if status = .fail ∧ (g.ruleActions cmd.rule).any (·.ignore) then .ok else status

def make1d (g : Graph T A R N) (popped : Bool) (f : Frame T) (status : Status)
    (s : State T A R N) : Except Halt (State T A R N) :=
  let t := f.t
  match s.cmds t with
  | [] => .error .noCommand
  | cmd :: others =>
    let status := ended g t cmd status
    let said : List (Event T R N) := if status = .fail then [.failed t cmd] else []
    let removed : List (Event T R N) := if status = .ok then []
      else (cmd.targets.filter fun n => !g.precious (g.bindtarget n)).map .unlinked
    .ok ({ s with
      intr := s.intr || (status == Status.intr || (status == Status.fail && g.quitquick))
      log := s.log ++ said ++ removed
      status := update s.status t status
      cmds := update s.cmds t others }.goto popped .make1c)

/-- **One turn of the loop.** After an interrupt the state is popped before it is worked on. -/
def next (g : Graph T A R N) (s : State T A R N) : Except Halt (State T A R N) :=
  match s.stack with
  | [] => .ok s
  | f :: _ =>
    let popped := s.intr
    let s := if popped then s.pop else s
    match f.curstate with
    | .make1a => .ok (s.make1a popped f)
    | .make1atail => .ok (s.make1atail popped f)
    | .make1b => s.make1b g popped f
    | .make1c => s.make1c g popped f
    | .make1d status => s.make1d g popped f status

/-- `make_closure`: a command has ended. -/
def closure (s : State T A R N) (ended : T × Status) : State T A R N :=
  { s with
    slots := s.slots.erase ended.1
    stack := ⟨ended.1, none, .make1d ended.2⟩ :: s.stack }

end State

/-! ### Runs -/

/-- No more commands are started than this. -/
def Graph.limit (g : Graph T A R N) : ℕ := min g.jobs 64

/-- A turn of the loop, or a call of `exec_wait`: at the end of `exec_cmd` while there are too many
commands, or once the stack is empty. It drives the completion of one command or more. -/
inductive Step (g : Graph T A R N) : State T A R N → State T A R N → Prop where
  | turn {s s' : State T A R N} : s.stack ≠ [] → s.slots = [] ∨ s.slots.length < g.limit →
      s.next g = .ok s' → Step g s s'
  | wait {s : State T A R N} {ended : List (T × Status)} : ended ≠ [] →
      s.stack = [] ∨ g.limit ≤ s.slots.length →
      (ended.map Prod.fst).Subperm s.slots → Step g s (ended.foldl State.closure s)

/-- What `make0` hands over. -/
structure Initial (g : Graph T A R N) (s : State T A R N) : Prop where
  progress : ∀ t, s.progress t = .init ∨ s.progress t = .semaphore
  semaphore : ∀ t x, g.semaphore t = some x → s.progress x = .semaphore
  status : ∀ t, s.status t = .ok
  asynccnt : ∀ t, s.asynccnt t = 0
  parents : ∀ t, s.parents t = []
  cmds : ∀ t, s.cmds t = []
  running : ∀ a, s.running a = false
  outcome : ∀ a, s.outcome a = .ok
  stack : s.stack = []
  slots : s.slots = []
  counts : s.counts = ⟨0, 0, 0, 0⟩
  result : s.result = false
  intr : s.intr = false
  log : s.log = []

/-- `make1` begins with a goal. -/
def State.call (goal : T) (s : State T A R N) : State T A R N :=
  { s with
    result := s.result || s.counts.total != s.counts.made
    counts := ⟨0, 0, 0, 0⟩
    stack := [⟨goal, none, .make1a⟩] }

/-- **The states of `make`**, which calls `make1` for one goal after another. -/
inductive Reachable (g : Graph T A R N) : State T A R N → Prop where
  | start {s : State T A R N} : Initial g s → Reachable g s
  | call {s : State T A R N} (goal : T) : Reachable g s → s.stack = [] → s.slots = [] →
      Reachable g (s.call goal)
  | step {s s' : State T A R N} : Reachable g s → Step g s s' → Reachable g s'

/-! ### Schedules -/

/-- A turn, or the end of a command. -/
inductive Move (T : Type) where
  | turn
  | ended (t : T) (status : Status)

/-- The run with these moves, if they are possible. -/
def State.play (g : Graph T A R N) : List (Move T) → State T A R N → Option (State T A R N)
  | [], s => some s
  | .turn :: moves, s =>
    if s.stack ≠ [] ∧ (s.slots = [] ∨ s.slots.length < g.limit) then
      match s.next g with
      | .ok s' => s'.play g moves
      | .error _ => none
    else none
  | .ended t status :: moves, s =>
    if (s.stack = [] ∨ g.limit ≤ s.slots.length) ∧ t ∈ s.slots then
      (s.closure (t, status)).play g moves
    else none

/-- What is played is a run. -/
theorem play_run {g : Graph T A R N} {moves : List (Move T)} {s s' : State T A R N}
    (h : s.play g moves = some s') : ReflTransGen (Step g) s s' := by
  induction moves generalizing s with
  | nil =>
    obtain rfl : s = s' := Option.some.inj h
    exact .refl
  | cons move moves ih =>
    cases move with
    | turn =>
      simp only [State.play] at h
      split at h
      · next possible =>
        split at h
        · next s₁ turn => exact .head (.turn possible.1 possible.2 turn) (ih h)
        · cases h
      · cases h
    | ended t status =>
      simp only [State.play] at h
      split at h
      · next possible =>
        refine .head (.wait (List.cons_ne_nil (t, status) []) possible.1 ?_) (ih h)
        simpa using possible.2
      · cases h

theorem Reachable.run {g : Graph T A R N} {s s' : State T A R N} (h : Reachable g s)
    (run : ReflTransGen (Step g) s s') : Reachable g s' := by
  induction run with
  | refl => exact h
  | tail _ step ih => exact ih.step step

def pairStart : State Bool Bool Unit Bool where
  depends t := if t then [false] else []
  includes _ := none
  rescanned _ := false
  progress _ := .init
  status _ := .ok
  asynccnt _ := 0
  parents _ := []
  cmds _ := []
  failed _ := none
  running _ := false
  outcome _ := .ok
  stack := []
  slots := []
  counts := ⟨0, 0, 0, 0⟩
  result := false
  intr := false
  log := []

theorem pairStart_initial {g : Graph Bool Bool Unit Bool} (h : ∀ t, g.semaphore t = none) :
    Initial g pairStart := by
  constructor <;> simp [pairStart, h]

/-- A command of each, one after the other. -/
def pairMoves : List (Move Bool) :=
  .replicate 5 .turn ++ .ended false .ok :: .replicate 6 .turn ++ .ended true .ok ::
    .replicate 2 .turn

def pairAfter (n : ℕ) : State Bool Bool Unit Bool :=
  ((pairStart.call true).play pair (pairMoves.take n)).getD pairStart

theorem pairAfter_run (n : ℕ)
    (h : ((pairStart.call true).play pair (pairMoves.take n)).isSome = true) :
    ReflTransGen (Step pair) (pairStart.call true) (pairAfter n) := by
  obtain ⟨s, hs⟩ := Option.isSome_iff_exists.mp h
  have : pairAfter n = s := by simp [pairAfter, hs]
  exact this ▸ play_run hs

theorem pairAfter_reachable (n : ℕ)
    (h : ((pairStart.call true).play pair (pairMoves.take n)).isSome = true) :
    Reachable pair (pairAfter n) :=
  ((Reachable.start (pairStart_initial fun _ => rfl)).call true rfl rfl).run (pairAfter_run n h)

end Make

end MapnikPackaging
