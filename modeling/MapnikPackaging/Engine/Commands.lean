/-
`make1cmds` of `engine/make1.c`: the commands that bring a target up to date.

A target has actions, an action a rule with its flags. The sources of an action are filtered by the
flags, `together` gathers those of the later actions of the rule, and `piecemeal` splits a command
that is too long. An action is shared between targets: `running` says that one has taken it.

* `pieces_spec` — a split command's pieces are its sources, in order, each short enough.
* `make1cmds_spec` — the commands have all the sources, and the target takes its own actions.
* `make1cmds_none` — it fails only on a command that is too long and cannot be split.
-/

import Mathlib.Logic.Function.Basic
import Mathlib.Data.List.Basic
import Mathlib.Data.Nat.Init

namespace MapnikPackaging

namespace Make

/-! ### The data -/

/-- The flags of `rule_actions`. -/
structure RuleActions where
  newsrcs : Bool
  together : Bool
  ignore : Bool
  piecemeal : Bool
  existing : Bool

/-- `ACTION` without its marks. -/
structure Action (T R : Type) where
  rule : R
  targets : List T
  sources : List T

/-- `CMD` -/
structure Cmd (R N : Type) where
  rule : R
  targets : List N
  sources : List N
deriving DecidableEq

/-- `T_FATE_…` -/
inductive Fate where
  | init | making | stable | newer | istmp | touched | rebuild | missing | needtmp | outdated
  | update | cantfind | cantmake
deriving DecidableEq

def Fate.val : Fate → ℕ
  | init => 0
  | making => 1
  | stable => 2
  | newer => 3
  | istmp => 4
  | touched => 5
  | rebuild => 6
  | missing => 7
  | needtmp => 8
  | outdated => 9
  | update => 10
  | cantfind => 11
  | cantmake => 12

/-- What `make0` has found out: the targets and their actions, and the options. -/
structure Graph (T A R N : Type) where
  fate : T → Fate
  actions : T → List A
  semaphore : T → Option T
  nocare : T → Bool
  rmold : T → Bool
  notfile : T → Bool
  failExpected : T → Bool
  internal : T → Bool
  precious : T → Bool
  /-- Whether the target is bound to a file that exists. -/
  bound : T → Bool
  boundname : T → N
  bindtarget : N → T
  originalTarget : T → T
  /-- The node of the files included by a target that has been updated. -/
  headers : T → Option T
  action : A → Action T R
  /-- The actions of a rule, if it has any. -/
  ruleActions : R → Option RuleActions
  /-- Whether no line of the command's text is longer than `MAXLINE`. -/
  fits : Cmd R N → Bool
  jobs : ℕ
  noexec : Bool
  quitquick : Bool

variable {T A R N : Type} {g : Graph T A R N} {fits : List N → Bool} {piecemeal : Bool}

/-! ### Lists of targets -/

/-- `make1list` leaves the target out. -/
def Graph.leftOut (g : Graph T A R N) (flags : RuleActions) (t : T) : Bool :=
  let old := (g.fate t).val ≤ Fate.stable.val
  if flags.existing && flags.newsrcs then !g.bound t && old
  else (flags.existing && !g.bound t) || (flags.newsrcs && old)

def make1list [DecidableEq N] (g : Graph T A R N) (flags : RuleActions) (l : List N)
    (targets : List T) : List N :=
  targets.foldl
    (fun l t =>
      if g.leftOut flags t then l
      else if flags.together && (g.boundname t ∈ l : Bool) then l
      else l ++ [g.boundname t]) l

/-! ### Splitting -/

/-- The loop that builds the commands of one action: `rest` are the sources from `start` on. The
chunk is positive while there are any. -/
@[semireducible] def chunks (fits : List N → Bool) (piecemeal : Bool) (rest : List N) (chunk : ℕ)
    (positive : rest ≠ [] → 0 < chunk) : Option (List (List N)) :=
  if fits (rest.take chunk) then
    if more : rest.drop chunk = [] then some [rest.take chunk]
    else do
      let pieces ← chunks fits piecemeal (rest.drop chunk) chunk
        fun _ => positive fun empty => more (by simp [empty])
      return rest.take chunk :: pieces
  else if split : piecemeal = true ∧ 1 < chunk then
    chunks fits piecemeal rest (chunk * 9 / 10) fun _ => by omega
  else none
termination_by rest.length + chunk
decreasing_by
  · have some : rest ≠ [] := fun empty => more (by simp [empty])
    have := positive some
    have := List.length_pos_iff.mpr some
    rw [List.length_drop]
    omega
  · omega

def pieces (fits : List N → Bool) (piecemeal : Bool) (ns : List N) : Option (List (List N)) :=
  chunks fits piecemeal ns ns.length List.length_pos_iff.mpr

/-- **Nothing is lost and nothing is said twice** where a command is split. -/
theorem chunks_spec {rest : List N} {chunk : ℕ} {positive : rest ≠ [] → 0 < chunk}
    {ps : List (List N)} (h : chunks fits piecemeal rest chunk positive = some ps) :
    ps.flatten = rest ∧ ∀ p ∈ ps, fits p := by
  induction rest, chunk, positive using chunks.induct fits piecemeal generalizing ps with
  | case1 rest chunk _ fit last =>
    rw [chunks, if_pos fit, dif_pos last] at h
    obtain rfl := Option.some.inj h
    refine ⟨?_, by simpa using fit⟩
    rw [List.flatten_singleton]
    exact List.take_of_length_le (List.drop_eq_nil_iff.mp last)
  | case2 rest chunk _ fit more ih =>
    rw [chunks, if_pos fit, dif_neg more] at h
    obtain ⟨qs, hqs, h⟩ := Option.bind_eq_some_iff.mp h
    obtain rfl := Option.some.inj h
    obtain ⟨all, each⟩ := ih hqs
    refine ⟨by rw [List.flatten_cons, all, List.take_append_drop], ?_⟩
    rintro p (_ | ⟨_, hp⟩)
    · exact fit
    · exact each p hp
  | case3 rest chunk positive unfit split ih =>
    rw [chunks, if_neg unfit, dif_pos split] at h
    exact ih h
  | case4 rest chunk positive unfit split =>
    rw [chunks, if_neg unfit, dif_neg split] at h
    cases h

theorem pieces_spec {ns : List N} {ps : List (List N)} (h : pieces fits piecemeal ns = some ps) :
    ps.flatten = ns ∧ ∀ p ∈ ps, fits p :=
  chunks_spec h

/-- What comes to nothing does so in its first part or later. -/
theorem bind_none {α β : Type} {first : Option α} {next : α → Option β}
    (h : first >>= next = none) : first = none ∨ ∃ a, first = some a ∧ next a = none := by
  cases first with
  | none => exact .inl rfl
  | some a => exact .inr ⟨a, rfl, h⟩

/-- A command that cannot be split further is too long. -/
theorem chunks_none {rest : List N} {chunk : ℕ} {positive : rest ≠ [] → 0 < chunk}
    (h : chunks fits piecemeal rest chunk positive = none) :
    ∃ ns ⊆ rest, ¬ fits ns ∧ (piecemeal = true → ns.length ≤ 1) := by
  induction rest, chunk, positive using chunks.induct fits piecemeal with
  | case1 rest chunk _ fit last =>
    rw [chunks, if_pos fit, dif_pos last] at h
    cases h
  | case2 rest chunk _ fit more ih =>
    rw [chunks, if_pos fit, dif_neg more] at h
    rcases bind_none h with h | ⟨ps, -, h⟩
    · obtain ⟨ns, sub, unfit⟩ := ih h
      exact ⟨ns, fun n hn => List.drop_subset _ _ (sub hn), unfit⟩
    · cases h
  | case3 rest chunk positive unfit split ih =>
    rw [chunks, if_neg unfit, dif_pos split] at h
    exact ih h
  | case4 rest chunk positive unfit split =>
    refine ⟨rest.take chunk, List.take_subset _ _, unfit, fun isPiecemeal => ?_⟩
    have small : chunk ≤ 1 := by simpa [isPiecemeal] using split
    exact Nat.le_trans (List.length_take_le chunk rest) small

/-- A command that is not split is too long even with one source, if it may be split. -/
theorem pieces_none {ns : List N} (h : pieces fits piecemeal ns = none) :
    ∃ some ⊆ ns, ¬ fits some ∧ (piecemeal = true → some.length ≤ 1) :=
  chunks_none h

/-! ### The commands of a target -/

variable [DecidableEq A] [DecidableEq R] [DecidableEq N]

/-- `make1list( L0, targets, 0 )` -/
def noFlags : RuleActions := ⟨false, false, false, false, false⟩

/-- With `together`, the sources of the later actions of the rule, which are taken with it. -/
def gather (g : Graph T A R N) (flags : RuleActions) (rule : R) (rest : List A)
    (taken : List N × (A → Bool)) : List N × (A → Bool) :=
  rest.foldl
    (fun taken a =>
      if (g.action a).rule = rule ∧ taken.2 a = false then
        (make1list g flags taken.1 (g.action a).sources, Function.update taken.2 a true)
      else taken) taken

/-- The sources an action is executed with, and the marks once it is taken. -/
def takeAction (g : Graph T A R N) (flags : RuleActions) (a : A) (rest : List A)
    (running : A → Bool) : List N × (A → Bool) :=
  let own := (make1list g flags [] (g.action a).sources, Function.update running a true)
  if flags.together then gather g flags (g.action a).rule rest own else own

/-- `make1cmds`, with the marks `running` of the actions; `none` is the exit on a command that is
too long. -/
def make1cmds (g : Graph T A R N) : List A → (A → Bool) →
    Option (List (Cmd R N) × (A → Bool))
  | [], running => some ([], running)
  | a :: rest, running =>
    let rule := (g.action a).rule
    match g.ruleActions rule with
    | none => make1cmds g rest running
    | some flags =>
      if running a then make1cmds g rest running
      else
        let nt := make1list g noFlags [] (g.action a).targets
        let taken := takeAction g flags a rest running
        if taken.1 = [] ∧ (flags.newsrcs || flags.existing) then make1cmds g rest taken.2
        else do
          let ps ← pieces (fun ns => g.fits ⟨rule, nt, ns⟩) flags.piecemeal taken.1
          let more ← make1cmds g rest taken.2
          return (ps.map (fun ns => ⟨rule, nt, ns⟩) ++ more.1, more.2)

/-- The rule of the action has something to execute. -/
def Graph.Executes (g : Graph T A R N) (a : A) : Prop :=
  (g.ruleActions (g.action a).rule).isSome

variable {flags : RuleActions} {rule : R} {l rest : List A} {running running' : A → Bool}
  {taken : List N × (A → Bool)} {cmds : List (Cmd R N)} {a b : A}

theorem gather_running :
    (gather g flags rule rest taken).2 b ↔
      taken.2 b ∨ (b ∈ rest ∧ (g.action b).rule = rule) := by
  induction rest generalizing taken with
  | nil => simp [gather]
  | cons a rest ih =>
    rw [gather, List.foldl_cons, ← gather, ih]
    split
    · next h =>
      by_cases same : b = a
      · subst same
        simp [h.1]
      · simp [same]
    · next h =>
      have already : b = a → (g.action b).rule = rule → taken.2 b = true := by
        rintro rfl sameRule
        simpa [sameRule] using h
      rw [List.mem_cons]
      tauto

/-- What one action adds to those taken. -/
theorem taken_running :
    (takeAction g flags a rest running).2 b ↔
      running b ∨ b = a ∨
        (flags.together ∧ b ∈ rest ∧ (g.action b).rule = (g.action a).rule) := by
  have own : Function.update running a true b ↔ running b ∨ b = a := by
    by_cases same : b = a
    · subst same
      simp
    · simp [same]
  rw [takeAction]
  split
  · next together => rw [gather_running, own, or_assoc, and_iff_right together]
  · next together => simp [own, together]

/-- What becomes of one action: it is passed over, or taken and made into commands. -/
theorem make1cmds_cons (h : make1cmds g (a :: rest) running = some (cmds, running')) :
    ((g.Executes a → running a) ∧ make1cmds g rest running = some (cmds, running')) ∨
    ∃ (flags : RuleActions) (ps : List (List N)) (more : List (Cmd R N)),
      g.ruleActions (g.action a).rule = some flags ∧ ¬ running a ∧
      ps.flatten = (takeAction g flags a rest running).1 ∧
      (∀ ns ∈ ps, g.fits ⟨(g.action a).rule, make1list g noFlags [] (g.action a).targets, ns⟩) ∧
      make1cmds g rest (takeAction g flags a rest running).2 = some (more, running') ∧
      cmds = ps.map (Cmd.mk (g.action a).rule (make1list g noFlags [] (g.action a).targets)) ++
        more := by
  rw [make1cmds] at h
  split at h
  · next none => exact .inl ⟨by simp [Graph.Executes, none], h⟩
  · next flags some =>
    split at h
    · next already => exact .inl ⟨fun _ => already, h⟩
    · next notYet =>
      refine .inr ⟨flags, ?_⟩
      dsimp only at h
      split at h
      · next none => exact ⟨[], cmds, some, notYet, none.1.symm, by simp, h, rfl⟩
      · obtain ⟨ps, hps, h⟩ := Option.bind_eq_some_iff.mp h
        obtain ⟨more, hmore, h⟩ := Option.bind_eq_some_iff.mp h
        obtain ⟨rfl, rfl⟩ := Prod.mk.inj (Option.some.inj h)
        exact ⟨ps, more.1, some, notYet, (pieces_spec hps).1, (pieces_spec hps).2, hmore, rfl⟩

/-- A target takes exactly its own actions, those that execute something. -/
theorem make1cmds_running (h : make1cmds g l running = some (cmds, running')) :
    running' b ↔ running b ∨ (b ∈ l ∧ g.Executes b) := by
  induction l generalizing running cmds with
  | nil =>
    obtain ⟨-, rfl⟩ := Prod.mk.inj (Option.some.inj h)
    simp
  | cons a rest ih =>
    rw [List.mem_cons]
    rcases make1cmds_cons h with ⟨passed, h⟩ | ⟨flags, ps, more, some, notYet, -, -, h, -⟩
    · rw [ih h]
      constructor
      · tauto
      · rintro (already | ⟨rfl | there, executes⟩)
        · exact .inl already
        · exact .inl (passed executes)
        · exact .inr ⟨there, executes⟩
    · have executes : g.Executes a := by simp [Graph.Executes, some]
      have sameRule : (g.action b).rule = (g.action a).rule → g.Executes b := by
        intro same
        simp [Graph.Executes, same, some]
      rw [ih h, taken_running]
      constructor
      · rintro ((already | rfl | ⟨-, there, same⟩) | ⟨there, executes⟩)
        · exact .inl already
        · exact .inr ⟨.inl rfl, executes⟩
        · exact .inr ⟨.inr there, sameRule same⟩
        · exact .inr ⟨.inr there, executes⟩
      · tauto

/-- Each command fits, and its rule has actions. -/
theorem make1cmds_fits (h : make1cmds g l running = some (cmds, running')) :
    ∀ c ∈ cmds, g.fits c ∧ (g.ruleActions c.rule).isSome := by
  induction l generalizing running cmds with
  | nil =>
    obtain ⟨rfl, -⟩ := Prod.mk.inj (Option.some.inj h)
    simp
  | cons a rest ih =>
    rcases make1cmds_cons h with ⟨-, h⟩ | ⟨flags, ps, more, some, -, -, fit, hmore, rfl⟩
    · exact ih h
    · intro c hc
      rcases List.mem_append.mp hc with hc | hc
      · obtain ⟨ns, hns, rfl⟩ := List.mem_map.mp hc
        exact ⟨fit ns hns, by simp [some]⟩
      · exact ih hmore c hc

/-- A command of the action is too long, with one source if it may be split. -/
def Graph.TooLong (g : Graph T A R N) (a : A) : Prop :=
  ∃ flags, g.ruleActions (g.action a).rule = some flags ∧ ∃ ns,
    ¬ g.fits ⟨(g.action a).rule, make1list g noFlags [] (g.action a).targets, ns⟩ ∧
      (flags.piecemeal = true → ns.length ≤ 1)

/-- **The program gives up** only on a command that is too long. -/
theorem make1cmds_none (h : make1cmds g l running = none) : ∃ a ∈ l, g.TooLong a := by
  induction l generalizing running with
  | nil => cases h
  | cons a rest ih =>
    have later : ∀ {running}, make1cmds g rest running = none → ∃ b ∈ a :: rest, g.TooLong b := by
      intro running h
      obtain ⟨b, hb, tooLong⟩ := ih h
      exact ⟨b, List.mem_cons_of_mem a hb, tooLong⟩
    rw [make1cmds] at h
    split at h
    · exact later h
    · next flags some =>
      split at h
      · exact later h
      · dsimp only at h
        split at h
        · exact later h
        · rcases bind_none h with h | ⟨ps, -, h⟩
          · obtain ⟨ns, -, unfit⟩ := pieces_none h
            exact ⟨a, List.mem_cons_self, flags, some, ns, unfit⟩
          · rcases bind_none h with h | ⟨more, -, h⟩
            · exact later h
            · cases h

/-! ### Sources -/

/-- The name is one of the sources of the action that are not left out. -/
def Graph.Source (g : Graph T A R N) (flags : RuleActions) (a : A) (n : N) : Prop :=
  ∃ t ∈ (g.action a).sources, g.leftOut flags t = false ∧ g.boundname t = n

omit [DecidableEq A] [DecidableEq R] in
theorem mem_make1list {names : List N} {targets : List T} {n : N} :
    n ∈ make1list g flags names targets ↔
    n ∈ names ∨ ∃ t ∈ targets, g.leftOut flags t = false ∧ g.boundname t = n := by
  induction targets generalizing names with
  | nil => simp [make1list]
  | cons t targets ih =>
    rw [make1list, List.foldl_cons, ← make1list, ih, List.exists_mem_cons_iff]
    cases out : g.leftOut flags t with
    | true => simp
    | false =>
      by_cases there : flags.together = true ∧ g.boundname t ∈ names
      · have known : g.boundname t = n → n ∈ names := fun same => same ▸ there.2
        simp only [there.1, there.2, decide_true, Bool.and_self, if_true, Bool.false_eq_true,
          if_false]
        tauto
      · have : (flags.together && decide (g.boundname t ∈ names)) = false := by simpa using there
        simp only [this, Bool.false_eq_true, if_false, List.mem_append, List.mem_singleton]
        tauto

theorem mem_gather {n : N} : n ∈ (gather g flags rule rest taken).1 ↔ n ∈ taken.1 ∨
    ∃ a ∈ rest, (g.action a).rule = rule ∧ taken.2 a = false ∧ g.Source flags a n := by
  induction rest generalizing taken with
  | nil => simp [gather]
  | cons a rest ih =>
    rw [gather, List.foldl_cons, ← gather, ih, List.exists_mem_cons_iff]
    split
    · next h =>
      have source : n ∈ make1list g flags taken.1 (g.action a).sources ↔
          n ∈ taken.1 ∨ g.Source flags a n := mem_make1list
      simp only [source, h.1, h.2, true_and]
      constructor
      · rintro ((there | here) | ⟨b, hb, sameRule, notYet, isSource⟩)
        · exact .inl there
        · exact .inr (.inl here)
        · have ne : b ≠ a := by
            rintro rfl
            simp at notYet
          rw [Function.update_of_ne ne] at notYet
          exact .inr (.inr ⟨b, hb, sameRule, notYet, isSource⟩)
      · rintro (there | here | ⟨b, hb, sameRule, notYet, isSource⟩)
        · exact .inl (.inl there)
        · exact .inl (.inr here)
        · by_cases same : b = a
          · exact .inl (.inr (same ▸ isSource))
          · refine .inr ⟨b, hb, sameRule, ?_, isSource⟩
            rwa [Function.update_of_ne same]
    · next h => tauto

theorem mem_takeAction {n : N} : n ∈ (takeAction g flags a rest running).1 ↔
    ∃ b, (b = a ∨ (flags.together ∧ b ∈ rest ∧ (g.action b).rule = (g.action a).rule ∧
      running b = false)) ∧ g.Source flags b n := by
  have own : n ∈ make1list g flags [] (g.action a).sources ↔ g.Source flags a n := by
    rw [mem_make1list]
    simp [Graph.Source]
  rw [takeAction]
  split
  · next together =>
    rw [mem_gather, own]
    constructor
    · rintro (isSource | ⟨b, hb, sameRule, notYet, isSource⟩)
      · exact ⟨a, .inl rfl, isSource⟩
      · dsimp only at notYet
        have ne : b ≠ a := by
          rintro rfl
          simp at notYet
        rw [Function.update_of_ne ne] at notYet
        exact ⟨b, .inr ⟨together, hb, sameRule, notYet⟩, isSource⟩
    · rintro ⟨b, rfl | ⟨-, hb, sameRule, notYet⟩, isSource⟩
      · exact .inl isSource
      · by_cases same : b = a
        · exact .inl (same ▸ isSource)
        · refine .inr ⟨b, hb, sameRule, ?_, isSource⟩
          dsimp only
          rwa [Function.update_of_ne same]
  · next alone =>
    rw [own]
    constructor
    · exact fun isSource => ⟨a, .inl rfl, isSource⟩
    · rintro ⟨b, rfl | ⟨together, -⟩, isSource⟩
      · exact isSource
      · exact absurd together alone

/-- Grouping and splitting lose no source: the commands of a target that are of one rule have
the sources of its actions of that rule which nobody has taken yet, apart from those left out. -/
theorem make1cmds_sources {n : N} (h : make1cmds g l running = some (cmds, running')) :
    (∃ c ∈ cmds, c.rule = rule ∧ n ∈ c.sources) ↔
      ∃ b ∈ l, (g.action b).rule = rule ∧ running b = false ∧
        ∃ flags, g.ruleActions rule = some flags ∧ g.Source flags b n := by
  induction l generalizing running cmds with
  | nil =>
    obtain ⟨rfl, -⟩ := Prod.mk.inj (Option.some.inj h)
    simp
  | cons a rest ih =>
    rcases make1cmds_cons h with ⟨passed, h⟩ | ⟨flags, ps, more, some, notYet, all, -, hmore, rfl⟩
    · rw [ih h, List.exists_mem_cons_iff, or_iff_right]
      rintro ⟨rfl, free, flags, some, -⟩
      have := passed (by simp [Graph.Executes, some])
      simp [free] at this
    · have split : (∃ c ∈ ps.map (Cmd.mk (g.action a).rule
            (make1list g noFlags [] (g.action a).targets)) ++ more, c.rule = rule ∧ n ∈ c.sources) ↔
          ((g.action a).rule = rule ∧ n ∈ ps.flatten) ∨
            ∃ c ∈ more, c.rule = rule ∧ n ∈ c.sources := by
        simp only [List.mem_append, List.mem_map, or_and_right, exists_or, List.mem_flatten]
        refine or_congr ⟨?_, ?_⟩ Iff.rfl
        · rintro ⟨c, ⟨ns, hns, rfl⟩, sameRule, there⟩
          exact ⟨sameRule, ns, hns, there⟩
        · rintro ⟨sameRule, ns, hns, there⟩
          exact ⟨_, ⟨ns, hns, rfl⟩, sameRule, there⟩
      rw [split, ih hmore, all, mem_takeAction]
      constructor
      · rintro (⟨rfl, b, hb, isSource⟩ | ⟨b, hb, sameRule, free, isSource⟩)
        · rcases hb with rfl | ⟨-, hb, sameRule, free⟩
          · exact ⟨b, List.mem_cons_self, rfl, by simpa using notYet, flags, some, isSource⟩
          · exact ⟨b, List.mem_cons_of_mem _ hb, sameRule, free, flags, some, isSource⟩
        · refine ⟨b, List.mem_cons_of_mem _ hb, sameRule, ?_, isSource⟩
          by_contra already
          have marked : (takeAction g flags a rest running).2 b = true :=
            taken_running.mpr (.inl (by simpa using already))
          simp [free] at marked
      · rintro ⟨b, hb, sameRule, free, flags', some', isSource⟩
        by_cases isTaken : (takeAction g flags a rest running).2 b = true
        · have same : b = a ∨ (flags.together ∧ b ∈ rest ∧
              (g.action b).rule = (g.action a).rule) := by
            simpa [free] using taken_running.mp isTaken
          have rule' : (g.action a).rule = rule := by
            rcases same with rfl | ⟨-, -, same⟩
            · exact sameRule
            · exact same.symm.trans sameRule
          obtain rfl : flags = flags' := by
            rw [rule', some'] at some
            exact (Option.some.inj some).symm
          refine .inl ⟨rule', b, same.imp_right fun same => ?_, isSource⟩
          exact ⟨same.1, same.2.1, same.2.2, free⟩
        · refine .inr ⟨b, ?_, sameRule, by simpa using isTaken, flags', some', isSource⟩
          apply (List.mem_cons.mp hb).resolve_left
          rintro rfl
          exact isTaken (taken_running.mpr (.inr (.inl rfl)))

/-- **The commands of a target**: each is short enough; those of a rule have the sources of the
target's actions of that rule which nobody has taken yet, apart from those left out; and the target
takes exactly its own actions. -/
theorem make1cmds_spec (h : make1cmds g l running = some (cmds, running')) :
    (∀ c ∈ cmds, g.fits c ∧ (g.ruleActions c.rule).isSome) ∧
    (∀ rule n, (∃ c ∈ cmds, c.rule = rule ∧ n ∈ c.sources) ↔
      ∃ b ∈ l, (g.action b).rule = rule ∧ running b = false ∧
        ∃ flags, g.ruleActions rule = some flags ∧ g.Source flags b n) ∧
    ∀ b, running' b ↔ running b ∨ (b ∈ l ∧ g.Executes b) :=
  ⟨make1cmds_fits h, fun _ _ => make1cmds_sources h, fun _ => make1cmds_running h⟩

/-- `true` is made of `false`, one command each. -/
def pair : Graph Bool Bool Unit Bool where
  fate _ := .missing
  actions t := [t]
  semaphore _ := none
  nocare _ := false
  rmold _ := false
  notfile _ := false
  failExpected _ := false
  internal _ := false
  precious _ := false
  bound _ := true
  boundname := id
  bindtarget := id
  originalTarget := id
  headers _ := none
  action t := ⟨(), [t], []⟩
  ruleActions _ := some ⟨false, false, false, false, false⟩
  fits _ := true
  jobs := 1
  noexec := false
  quitquick := false

/-- The pair with the same sources for both, too many for one command. -/
def halves : Graph Bool Bool Unit Bool :=
  { pair with
    action := fun t => ⟨(), [t], [false, true]⟩
    ruleActions := fun _ => some ⟨false, true, false, true, false⟩
    fits := fun c => c.sources.length ≤ 1 }

theorem make1cmds_spec_halves :
    ((∀ c ∈ [⟨(), [true], [false]⟩, (⟨(), [true], [true]⟩ : Cmd Unit Bool)],
        halves.fits c ∧ (halves.ruleActions c.rule).isSome) ∧
      (∀ rule n, (∃ c ∈ [⟨(), [true], [false]⟩, (⟨(), [true], [true]⟩ : Cmd Unit Bool)],
          c.rule = rule ∧ n ∈ c.sources) ↔
        ∃ b ∈ [true, false], (halves.action b).rule = rule ∧ (fun _ : Bool => false) b = false ∧
          ∃ flags, halves.ruleActions rule = some flags ∧ halves.Source flags b n) ∧
      ∀ b, Function.update (Function.update (fun _ : Bool => false) true true) false true b ↔
        (fun _ : Bool => false) b ∨ (b ∈ [true, false] ∧ halves.Executes b)) :=
  make1cmds_spec rfl

end Make

end MapnikPackaging
