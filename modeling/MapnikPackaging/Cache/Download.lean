/-
The download cache.

`download` fetches a package into the current directory unless a file of that name is
already there. `curl` writes under that very name as the data comes in, so a transfer that
breaks off leaves what it has received behind. The script that asked for it stops, but the next
one finds a file. `cache_complete_iff` says that this is the only way the cache goes wrong.
-/

import MapnikPackaging.Shell.Runs
import Mathlib.Data.List.TakeDrop
import Mathlib.Logic.Function.Basic

namespace MapnikPackaging

namespace Download

/-- The content of a file. -/
abbrev Content := List UInt8

/-- The files below `PACKAGES`, by name. -/
abbrev Files := String → Option Content

/-- How a transfer ends. -/
inductive Transfer where
  /-- everything has arrived -/
  | complete
  /-- `curl` fails before it has created the file -/
  | refused
  /-- the retries are used up, or `curl` is killed, after the first `n` bytes -/
  | cutOff (n : Nat)
deriving DecidableEq, Repr

/-- `curl -s -S -f -O -L --retry 3 ${S3_BASE}/$1`: the files afterwards and whether it succeeded. -/
def systemCurl (remote : String → Content) (name : String) (files : Files) :
    Transfer → Files × Bool
  | .complete => (Function.update files name (some (remote name)), true)
  | .refused => (files, false)
  | .cutOff n => (Function.update files name (some ((remote name).take n)), false)

/-- `download`; the siblings of it in `build_tbb.sh`, `build_node.sh` and
`setup-android-ndk.sh` test and fetch alike. -/
def download (remote : String → Content) (name : String) (t : Transfer) (files : Files) :
    Files × Bool :=
  match files name with
  | none => systemCurl remote name files t
  | some _ => (files, true)

/-- The cache, and whether the script at work is still running. -/
structure State where
  files : Files
  running : Bool

/-- A script starts, or the one at work calls `download`. -/
inductive Action where
  | script
  | call (name : String) (t : Transfer)
deriving DecidableEq, Repr

/-- The scripts run under `set -e`: a failed download is their last. -/
def step (remote : String → Content) (σ : State) : Action → State
  | .script => { σ with running := true }
  | .call name t =>
    if σ.running then
      let (files, success) := download remote name t σ.files
      ⟨files, success⟩
    else σ

/-- Nothing downloaded yet. -/
def empty : State := ⟨fun _ => none, false⟩

/-- Every file is complete. -/
def Complete (remote : String → Content) (σ : State) : Prop :=
  ∀ name content, σ.files name = some content → content = remote name

/-- The call is not one that fetches a file and loses part of it. -/
def NotCut (remote : String → Content) (σ : State) : Action → Prop
  | .script => True
  | .call name t =>
    σ.running = true → σ.files name = none → ∀ n, t = .cutOff n → (remote name).length ≤ n

variable {remote : String → Content} {σ : State}

theorem complete_update {name : String} {content : Content} {running : Bool}
    (h : Complete remote σ) :
    Complete remote ⟨Function.update σ.files name (some content), running⟩ ↔
      content = remote name := by
  constructor
  · intro complete
    exact complete name content (Function.update_self ..)
  · rintro rfl other content' hfile
    by_cases same : other = name
    · subst same
      simp only [Function.update_self, Option.some.injEq] at hfile
      exact hfile.symm
    · simp only [Function.update_of_ne same] at hfile
      exact h other content' hfile

/-- A step keeps the cache complete exactly when it does not cut a file off. -/
theorem complete_step (h : Complete remote σ) (a : Action) :
    Complete remote (step remote σ a) ↔ NotCut remote σ a := by
  cases a with
  | script => exact iff_of_true h trivial
  | call name t =>
    simp only [step, NotCut]
    by_cases running : σ.running = true
    · simp only [running, if_true, download, true_imp_iff]
      cases there : σ.files name with
      | some content => exact iff_of_true h fun missing => nomatch missing
      | none =>
        cases t with
        | complete => exact iff_of_true ((complete_update h).mpr rfl) fun _ n cut => nomatch cut
        | refused => exact iff_of_true h fun _ n cut => nomatch cut
        | cutOff n =>
          simp only [systemCurl, complete_update h, List.take_eq_self_iff, true_imp_iff,
            Transfer.cutOff.injEq, forall_eq']
    · rw [if_neg running]
      exact iff_of_true h fun r => absurd r running

/-- A successful download leaves the file there, whole if the cache was complete. -/
theorem download_complete {name : String} {t : Transfer} (h : Complete remote σ)
    (success : (download remote name t σ.files).2 = true) :
    (download remote name t σ.files).1 name = some (remote name) := by
  revert success
  simp only [download]
  cases there : σ.files name with
  | some content => simp [there, h name content there]
  | none => cases t <;> simp [systemCurl]

/-- **The cache is complete in every state of a run exactly when no transfer is cut off, and
then every successful download is a complete one.** -/
theorem cache_complete_iff (actions : List Action) :
    (Runs.Always (step remote) (Complete remote) empty actions ↔
      Runs.Along (step remote) (NotCut remote) empty actions) ∧
    (Runs.Along (step remote) (NotCut remote) empty actions →
      ∀ name t, (download remote name t (Runs.final (step remote) empty actions).files).2 = true →
        (download remote name t (Runs.final (step remote) empty actions).files).1 name
          = some (remote name)) := by
  have start : Complete remote empty := fun _ _ h => nomatch h
  have exact_run : Runs.Always (step remote) (Complete remote) empty actions ↔
      Runs.Along (step remote) (NotCut remote) empty actions :=
    Runs.always_iff_along (I := fun _ => True) start trivial (fun _ _ _ => trivial)
      fun σ a _ h => complete_step h a
  refine ⟨exact_run, fun whole name t success => download_complete ?_ success⟩
  exact Runs.always_iff.mp (exact_run.mpr whole) actions (List.prefix_refl _)

/-- A transfer that is killed, and a second script that finds what it left. -/
theorem zlib_cut_off :
    let remote : String → Content := fun _ => [0x1f, 0x8b]
    let name := "zlib-1.2.8.tar.gz"
    let σ := Runs.final (step remote) empty [.script, .call name (.cutOff 1), .script]
    (download remote name .complete σ.files).2 = true ∧
      (download remote name .complete σ.files).1 name = some [0x1f] ∧
      ¬ Complete remote σ := by
  refine ⟨by decide, by decide, fun h => ?_⟩
  exact absurd (h "zlib-1.2.8.tar.gz" [0x1f] (by decide)) (by decide)

end Download

end MapnikPackaging
