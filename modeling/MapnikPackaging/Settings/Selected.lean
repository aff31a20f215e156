/-
`settings.sh` with its platform choices made.

What a platform script runs is one branch of `settings.sh`: the platform test, the zlib
test and the toolchain test are decided by the script and the machine before the file
is read. `Branch.settings` is that straight line, with the choice of the compilers as a
parameter. `settings_run_branch` says that it is the file itself in any allowed
directory (`Allowed`), `settings_run_selected` that the choice is the platform's whenever
the compilers the caller brought give way (`TakesPlatform`), and `Platform.source_branch`
and `Platform.source_selected` lift both to the platform scripts; from there on every
question about the hundred variables of `settings.sh` is a question about the footprint
of a straight line.
-/

import MapnikPackaging.Settings.Platforms

namespace MapnikPackaging

open Shell Script Var

/-- The branches a platform can take; Xcode with or without a `Toolchains` directory. -/
inductive Branch where
  | linux | linaro | linaroSoftfp | android
  | xcode (toolchains : Bool)
deriving DecidableEq, Repr

namespace Branch

def commands : Branch → List Cmd
  | linux => linuxBranch
  | linaro => linaroBranch
  | linaroSoftfp => linaroSoftfpBranch
  | android => androidBranch
  | xcode t => xcodeSelect ++ toolchainBranch t ++ darwinFlags

def zlib : Branch → Cmd
  | linux | linaro | linaroSoftfp => .export ZLIB_PATH ["/usr"]
  | android => .export ZLIB_PATH [PLATFORM_PREFIX]
  | xcode _ => .when (.not (.is [SDK_PATH] "")) (.export ZLIB_PATH [SDK_PATH, "/usr"])

end Branch

/-- `${X:-false} == false`. -/
def Off (o : Option String) : Prop := orDefault o "false" = "false"

instance (o : Option String) : Decidable (Off o) := inferInstanceAs (Decidable (_ = _))

/-- `clearCxx` as one update. -/
def cleared : Cmd := .adjust CXX fun o => if Off o then some "" else o

/-- `settings.sh` up to the choice of the compilers, along one branch. -/
def Branch.before (b : Branch) : List Cmd :=
  settingsHead ++ cleared :: b.commands ++ settingsPaths ++ b.zlib :: settingsCore

/-- The compilers as the file chooses them. -/
def callerFirst : List Cmd :=
  [selectCompiler CXX CORE_CXX "c++", selectCompiler CC CORE_CC "cc"]

/-- The compilers of the platform. -/
def platformFirst : List Cmd := [.export CXX [CORE_CXX], .export CC [CORE_CC]]

/-- `settings.sh` along one branch. -/
def Branch.settings (b : Branch) (choice : List Cmd) : List Cmd :=
  b.before ++ choice ++ settingsFlags ++ settingsVersions

/-- The branch a platform takes on a machine it is usable on. -/
def Platform.branch (m : Machine) : Platform → Branch
  | .linux => .linux
  | .linaro => .linaro
  | .linaroSoftfp => .linaroSoftfp
  | .android => .android
  | _ => .xcode (m.isDir (m.xcode_select ++ "/Toolchains/"))

namespace Branch

/-- `CORE_CC`. -/
def coreCC : Branch → String
  | linux => "clang"
  | linaro => "arm-linux-gnueabihf-gcc"
  | linaroSoftfp => "arm-linux-gnueabi-gcc"
  | android => "arm-linux-androideabi-clang"
  | xcode _ => "/usr/bin/clang"

/-- `CORE_CXX`. -/
def coreCXX : Branch → String
  | linux => "clang++"
  | linaro => "arm-linux-gnueabihf-g++"
  | linaroSoftfp => "arm-linux-gnueabi-g++"
  | android => "arm-linux-androideabi-clang++"
  | xcode _ => "/usr/bin/clang++"

end Branch

/-- The directory `settings.sh` agrees to run in. -/
def Allowed (s : Env Var) : Prop := occursIn "/usr/" (orDefault (s cwd) "") = false

instance (s : Env Var) : Decidable (Allowed s) := inferInstanceAs (Decidable (_ = _))

/-- The compiler `x` the caller brought gives way to the platform's, or is the same. -/
def TakesPlatform (s : Env Var) (x : Var) (core : String) : Prop :=
  Off (s x) ∨ ¬ Off (s MP_CROSS) ∨ s x = some core

instance (s : Env Var) (x : Var) (core : String) : Decidable (TakesPlatform s x core) :=
  inferInstanceAs (Decidable (_ ∨ _))

/-! ### Evaluating the tests -/

section Tests

variable {m : Machine} {s : Env Var}

@[simp] theorem is_eval (x : Var) (t u : String) (h : s x = some u) :
    (Test.is [.val x] t : Cond).eval m s = .ok (decide (u = t)) := by
  simp [Test.is, Test.eval, expandAll, Word.eval, Seg.eval, fetch, h, Except.map, bind,
    Except.bind, pure, Except.pure]

@[simp] theorem isOff_eval (x : Var) : (isOff x).eval m s = .ok (decide (Off (s x))) := by
  simp [isOff, Off, Test.is, Test.eval, expandAll, Word.eval, Seg.eval, Except.map, bind,
    Except.bind, pure, Except.pure]
  rfl

@[simp] theorem flag_eval (x : Var) :
    (Test.flag x : Cond).eval m s = .ok (! decide (Off (s x))) := by
  simp [Test.flag, Off, Test.is, Test.eval, expandAll, Word.eval, Seg.eval, Except.map, bind,
    Except.bind, pure, Except.pure]
  rfl

theorem underUsr_eval : underUsr.eval m s = .ok (occursIn "/usr/" (orDefault (s cwd) "")) := by
  simp [underUsr, here, Test.eval, expandAll, Word.eval, Seg.eval, Except.map, bind,
    Except.bind, pure, Except.pure]

end Tests

/-! ### The straight line is the file -/

section Selected

variable {m : Machine} {P : Platform} {s s₁ : Env Var}

theorem clearCxx_run : clearCxx.run m s = cleared.run m s := by
  simp only [clearCxx, when, ite_run_of_eval (isOff_eval CXX), cleared, adjust]
  by_cases h : Off (s CXX)
  · simp [h, «export», exporting, assign, Word.eval, Except.map]
  · simp [h]

/-- What the tests of `settings.sh` see when the script of `P` has set the platform up. -/
structure Selects (m : Machine) (P : Platform) (s : Env Var) : Prop where
  usable : P.usableOn m
  platform : s MP_PLATFORM = some P.mpPlatform
  target : P = .android → s MP_ANDROID_TARGET = some "arm"

/-- The platform branch is reached with the platform still as the script set it. -/
theorem platformBranch_run (hs : Selects m P s)
    (h : (block (settingsHead ++ [cleared])).run m s = .ok s₁) :
    platformBranch.run m s₁ = (block (P.branch m).commands).run m s₁ := by
  have platform : s₁ MP_PLATFORM = some P.mpPlatform := by
    rw [(block _).frame h MP_PLATFORM (by decide), hs.platform]
  have kernel : s₁ UNAME = some m.uname_s := block_ask h rfl rfl
  have xcode : m.uname_s = "Darwin" →
      (block darwinBranch).run m s₁ =
        (block (Branch.xcode (m.isDir (m.xcode_select ++ "/Toolchains/"))).commands).run m s₁ := by
    intro _
    rw [darwinBranch, Branch.commands, ← block_splice]
    apply block_congr _ _
    intro s₂ h₂
    have here : s₂ XCODE_PREFIX = some m.xcode_select := block_ask h₂ rfl rfl
    have test : (dirTest [XCODE_PREFIX, "/Toolchains/"]).eval m s₂
        = .ok (m.isDir (m.xcode_select ++ "/Toolchains/")) := by
      simp [dirTest, Test.eval, expandAll, Word.eval, Seg.eval, fetch, here, Except.map, bind,
        Except.bind, pure, Except.pure]
    rw [xcodeToolchain, ite_run_of_eval test]
    cases m.isDir (m.xcode_select ++ "/Toolchains/") <;> rfl
  have usable := hs.usable
  cases P <;>
    simp only [platformBranch, ite_run_of_eval (is_eval _ _ _ platform),
      ite_run_of_eval (is_eval _ _ _ kernel), Platform.mpPlatform, Platform.branch] <;>
    simp only [Platform.usableOn] at usable <;>
    simp [usable, Branch.commands] <;> exact xcode usable

theorem zlibPath_run (hs : Selects m P s)
    (h : (block (settingsHead ++ cleared :: (P.branch m).commands ++ settingsPaths)).run m s
      = .ok s₁) :
    zlibPath.run m s₁ = (P.branch m).zlib.run m s₁ := by
  have platform : s₁ MP_PLATFORM = some P.mpPlatform := by
    rw [(block _).frame h MP_PLATFORM _, hs.platform]
    cases P.branch m with
    | xcode t => cases t <;> decide
    | _ => decide
  have shared : s₁ SHARED_ZLIB = some "true" := by
    cases hb : P.branch m with
    | xcode t => rw [hb] at h; cases t <;> exact block_literal h rfl rfl
    | _ => rw [hb] at h; exact block_literal h rfl rfl
  have usable := hs.usable
  cases P <;>
    simp [zlibPath, sharedZlib, when, ite_run_of_eval (is_eval _ _ _ platform),
      ite_run_of_eval (is_eval _ _ _ shared), Platform.mpPlatform, Platform.branch, Branch.zlib]

/-- The compilers the platform branch offers. -/
theorem core_value (hs : Selects m P s) (h : (block (P.branch m).before).run m s = .ok s₁) :
    s₁ CORE_CC = some (P.branch m).coreCC ∧ s₁ CORE_CXX = some (P.branch m).coreCXX := by
  cases hb : P.branch m with
  | android =>
    rw [hb] at h
    have target : s₁ MP_ANDROID_TARGET = some "arm" := by
      rw [(block _).frame h MP_ANDROID_TARGET (by decide)]
      exact hs.target (by cases P <;> simp [Platform.branch] at hb ⊢)
    obtain ⟨cc, hcc, vcc⟩ := block_value (x := CORE_CC)
      (w := [MP_ANDROID_TARGET, "-linux-androideabi-clang"]) h rfl rfl (by decide) (by decide)
    obtain ⟨cxx, hcxx, vcxx⟩ := block_value (x := CORE_CXX)
      (w := [MP_ANDROID_TARGET, "-linux-androideabi-clang++"]) h rfl rfl (by decide) (by decide)
    rw [vcc, vcxx]
    simp only [Word.eval, Seg.eval, fetch, target] at hcc hcxx
    rw [← Except.ok.inj hcc, ← Except.ok.inj hcxx]
    decide
  | xcode t =>
    rw [hb] at h
    cases t <;> exact ⟨block_literal h rfl rfl, block_literal h rfl rfl⟩
  | _ =>
    rw [hb] at h
    exact ⟨block_literal h rfl rfl, block_literal h rfl rfl⟩

theorem not_off_core (b : Branch) : ¬ Off (some b.coreCC) ∧ ¬ Off (some b.coreCXX) := by
  cases b with
  | xcode t => cases t <;> decide
  | _ => decide

/-- The compiler choice, where the caller's compiler gives way. -/
theorem selectCompiler_run {x core : Var} {fallback t : String} (hcore : s core = some t)
    (real : ¬ Off (some t)) (takes : TakesPlatform s x t) :
    (selectCompiler x core fallback).run m s
      = (.export x [core] : Cmd).run m s := by
  have write : (.export x [core] : Cmd).run m s = .ok (Function.update s x (some t)) := by
    simp [«export», exporting, assign, Word.eval, Seg.eval, fetch, hcore, Except.map, bind,
      Except.bind, pure, Except.pure]
  have test : (Test.or (isOff x) (.flag MP_CROSS) : Cond).eval m s
      = .ok (decide (Off (s x)) || ! decide (Off (s MP_CROSS))) := by
    by_cases hx : Off (s x) <;> simp [Test.eval, hx, bind, Except.bind, pure, Except.pure]
  have inner : (Test.flag core : Cond).eval m s = .ok true := by simp [hcore, real]
  rw [selectCompiler, when, ite_run_of_eval test, ite_run_of_eval inner]
  by_cases hx : Off (s x)
  · simp [hx]
  by_cases hcross : Off (s MP_CROSS)
  · -- Nothing is chosen, and the caller's compiler is the platform's own.
    have same : s x = some t := by
      rcases takes with h | h | h
      · exact absurd h hx
      · exact absurd hcross h
      · exact h
    simp [hx, hcross, write, ← same]
  · simp [hx, hcross]

/-- `settings.sh` leaves the compiler alone up to the choice, but for clearing `CXX`. -/
theorem before_compilers {b : Branch} (h : (block b.before).run m s = .ok s₁) :
    s₁ CC = s CC ∧ s₁ CXX = (if Off (s CXX) then some "" else s CXX) ∧
      s₁ MP_CROSS = s MP_CROSS := by
  rw [show b.before = settingsHead ++ cleared :: (b.commands ++ settingsPaths ++ b.zlib ::
    settingsCore) by simp [Branch.before]] at h
  obtain ⟨s₂, h₂, h⟩ := block_append_ok h
  obtain ⟨s₃, h₃, h⟩ := block_cons_ok h
  have middle : ∀ x ∈ [CC, CXX, MP_CROSS], s₁ x = s₃ x := by
    intro x hx
    apply (block _).frame h x
    have all : ∀ x ∈ [CC, CXX, MP_CROSS],
        x ∉ (block (b.commands ++ settingsPaths ++ b.zlib :: settingsCore)).touches := by
      cases b with
      | xcode t => cases t <;> decide
      | _ => decide
    exact all x hx
  have head : ∀ x ∈ [CC, CXX, MP_CROSS], s₂ x = s x := fun x hx =>
    (block settingsHead).frame h₂ x
      ((by decide : ∀ x ∈ [CC, CXX, MP_CROSS], x ∉ (block settingsHead).touches) x hx)
  simp only [cleared, adjust, Except.ok.injEq] at h₃
  rw [middle CC (by simp), middle CXX (by simp), middle MP_CROSS (by simp), ← h₃]
  simp [head]

/-- **`settings.sh` is one straight line**, whenever the platform is one of the ten and the
directory is allowed. -/
theorem settings_run_branch (hs : Selects m P s) (allowed : Allowed s) :
    (block settingsCommands).run m s = (block ((P.branch m).settings callerFirst)).run m s := by
  have refuse : refuseUsr.run m s = .ok s := by
    rw [Allowed] at allowed
    rw [refuseUsr, when, ite_run_of_eval underUsr_eval, allowed]
    rfl
  let b := P.branch m
  let after : List Cmd := settingsCore ++ callerFirst ++ settingsFlags ++ settingsVersions
  let paths : List Cmd := settingsPaths ++ zlibPath :: after
  calc (block settingsCommands).run m s
      = (block (refuseUsr :: (settingsHead ++ clearCxx :: platformBranch :: paths))).run m s := by
        simp [settingsCommands, paths, after, callerFirst]
    _ = (block (settingsHead ++ clearCxx :: platformBranch :: paths)).run m s :=
        block_cons_of_run _ refuse
    _ = (block (settingsHead ++ cleared :: platformBranch :: paths)).run m s :=
        block_congr _ _ fun _ _ => clearCxx_run
    _ = (block ((settingsHead ++ [cleared]) ++ platformBranch :: paths)).run m s := by simp
    _ = (block ((settingsHead ++ [cleared]) ++ block b.commands :: paths)).run m s :=
        block_congr _ _ fun _ h => platformBranch_run hs h
    _ = (block ((settingsHead ++ cleared :: b.commands ++ settingsPaths) ++
          zlibPath :: after)).run m s := by
        rw [block_splice]
        simp [paths]
    _ = (block ((settingsHead ++ cleared :: b.commands ++ settingsPaths) ++
          b.zlib :: after)).run m s :=
        block_congr _ _ fun _ h => zlibPath_run hs h
    _ = (block (b.settings callerFirst)).run m s := by
        simp [Branch.settings, Branch.before, after]

/-- The choice of the compilers, where both of the caller's give way. -/
theorem callerFirst_run (hs : Selects m P s) (cxx : TakesPlatform s CXX (P.branch m).coreCXX)
    (cc : TakesPlatform s CC (P.branch m).coreCC) (h : (block (P.branch m).before).run m s = .ok s₁) :
    (block callerFirst).run m s₁ = (block platformFirst).run m s₁ := by
  obtain ⟨hcc, hcxx, hcross⟩ := before_compilers h
  obtain ⟨coreCC, coreCXX⟩ := core_value hs h
  have takesCXX : TakesPlatform s₁ CXX (P.branch m).coreCXX := by
    rcases cxx with off | cross | same
    · exact .inl (by rw [hcxx, if_pos off]; decide)
    · exact .inr (.inl (by rwa [hcross]))
    · refine .inr (.inr ?_)
      rw [hcxx, same, if_neg (not_off_core _).2]
  have first : (selectCompiler CXX CORE_CXX "c++").run m s₁ = (.export CXX [CORE_CXX] : Cmd).run m s₁ :=
    selectCompiler_run coreCXX (not_off_core _).2 takesCXX
  refine (block_congr [] _ fun s₂ h₂ => ?_).trans
    (block_congr [.export CXX [CORE_CXX]] [] fun s₂ h₂ => ?_)
  · cases h₂
    exact first
  · have kept : ∀ x, x ≠ CXX → s₂ x = s₁ x := fun x hx =>
      (block _).frame h₂ x (by simp [mem_block_touches, «export», exporting, assign, hx])
    apply selectCompiler_run ((kept CORE_CC (by simp)).trans coreCC) (not_off_core _).1
    rcases cc with off | cross | same
    · exact .inl (by rwa [kept CC (by simp), hcc])
    · exact .inr (.inl (by rwa [kept MP_CROSS (by simp), hcross]))
    · exact .inr (.inr (by rw [kept CC (by simp), hcc, same]))

/-- With the caller's compilers giving way, the line takes the platform's. -/
theorem settings_run_selected (hs : Selects m P s) (allowed : Allowed s)
    (cxx : TakesPlatform s CXX (P.branch m).coreCXX)
    (cc : TakesPlatform s CC (P.branch m).coreCC) :
    (block settingsCommands).run m s = (block ((P.branch m).settings platformFirst)).run m s := by
  rw [settings_run_branch hs allowed]
  simp only [Branch.settings, List.append_assoc]
  apply block_append_congr _
  intro s₁ h
  rw [block_append_run, block_append_run, callerFirst_run hs cxx cc h]

/-- What a run on an Apple platform leaves for a second one. -/
theorem after_xcode {t : Bool}
    (h : (block ((Branch.xcode t).settings platformFirst)).run m s = .ok s₁) :
    s₁ CXX = some "/usr/bin/clang++" ∧ s₁ CC = some "/usr/bin/clang" := by
  have copied : ∀ {x core : Var} {u : String},
      (∃ a, Word.eval m s₁ [.val core] = .ok a ∧ s₁ x = some a) → s₁ core = some u → s₁ x = some u := by
    rintro x core u ⟨a, ha, hx⟩ hcore
    simp only [Word.eval, Seg.eval, fetch, hcore] at ha
    rw [hx, ← Except.ok.inj ha]
    simp
  cases t <;> refine ⟨copied (block_value h rfl rfl (by decide) (by decide))
      (block_literal h rfl rfl : s₁ CORE_CXX = _),
    copied (block_value h rfl rfl (by decide) (by decide))
      (block_literal h rfl rfl : s₁ CORE_CC = _)⟩

/-! ### The platform scripts -/

namespace Platform

/-- The script whose `settings.sh` runs first: its own, or that of the sibling a variant
starts from. -/
def base : Platform → Platform
  | iPhoneOS64 | iPhoneOSs => iPhoneOS
  | iPhoneSimulator64 => iPhoneSimulator
  | P => P

/-- The assignments before the first `source settings.sh`. -/
def assignments : Platform → List Cmd
  | linux => linuxAssignments
  | linaro => linaroAssignments
  | linaroSoftfp => linaroSoftfpAssignments
  | android => androidAssignments
  | macOSX => macOSXAssignments
  | iPhoneOS | iPhoneOS64 | iPhoneOSs => iPhoneOSAssignments
  | iPhoneSimulator | iPhoneSimulator64 => iPhoneSimulatorAssignments

/-- What follows the first `source settings.sh`, given what a second one runs. -/
def rest (cs : List Cmd) : Platform → List Cmd
  | linaro | linaroSoftfp => [.export MAKE ["make"]]
  | iPhoneOS64 => variantAssignments "arm64" "iPhoneOS64" ++ cs
  | iPhoneOSs => variantAssignments "armv7s" "iPhoneOSs" ++ cs
  | iPhoneSimulator64 => variantAssignments "x86_64" "iPhoneSimulator64" ++ cs
  | _ => []

theorem commandsWith_eq (cs : List Cmd) (P : Platform) :
    P.commandsWith cs = P.assignments ++ cs ++ P.rest cs := by
  cases P <;> simp [commandsWith, assignments, rest]

theorem branch_base (m : Machine) (P : Platform) : P.base.branch m = P.branch m := by
  cases P <;> rfl

/-- Along one branch, `P.sh` is this straight line. -/
def selected (b : Branch) (choice : List Cmd) (P : Platform) : Cmd :=
  block (P.commandsWith (b.settings choice))

theorem selects_base (usable : P.usableOn m) (h : (block P.assignments).run m s = .ok s₁) :
    Selects m P.base s₁ := by
  refine ⟨?_, ?_, ?_⟩
  · cases P <;> exact usable
  · cases P <;> exact block_literal h rfl rfl
  · intro hP
    cases P <;> first | exact block_literal h rfl rfl | cases hP

theorem assignments_frame (h : (block P.assignments).run m s = .ok s₁) :
    ∀ x ∈ [cwd, CXX, CC, MP_CROSS], s₁ x = s x := by
  intro x hx
  have all : ∀ x ∈ [cwd, CXX, CC, MP_CROSS], x ∉ (block P.assignments).touches := by
    cases P <;> decide
  exact (block _).frame h x (all x hx)

/-- Two ways through `settings.sh` that agree wherever `I` holds make the same platform
script, when `I` and the directory outlive a first pass of a variant. -/
theorem source_eq_of_settings {choice : List Cmd} {I : Env Var → Prop}
    (usable : P.usableOn m) (allowed : Allowed s) (hI : I s)
    (stable : ∀ s t : Env Var, (∀ x ∈ [cwd, CXX, CC, MP_CROSS], t x = s x) → I s → I t)
    (agree : ∀ Q s₁, Q.branch m = P.branch m → Selects m Q s₁ → Allowed s₁ → I s₁ →
      (block settingsCommands).run m s₁ = (block ((P.branch m).settings choice)).run m s₁)
    (again : ∀ t s₁ s₂, P.branch m = .xcode t →
      (block ((Branch.xcode t).settings choice)).run m s₁ = .ok s₂ → I s₁ → s₂ cwd = s₁ cwd ∧ I s₂) :
    P.source m s = (P.selected (P.branch m) choice).run m s := by
  simp only [source, script, selected, commandsWith_eq, List.append_assoc]
  apply block_append_congr _
  intro s₁ h
  have kept := assignments_frame h
  have allowed₁ : Allowed s₁ := by rwa [Allowed, kept cwd (by simp)]
  have hI₁ := stable s s₁ kept hI
  have first := agree P.base s₁ (branch_base m P) (selects_base usable h) allowed₁ hI₁
  rw [block_append_run, block_append_run, first, ← block_append_run, ← block_append_run]
  apply block_append_congr _
  intro s₂ h₂
  -- Only the variants run `settings.sh` again.
  have variant : ∀ {t : Bool} (arch : String), P.branch m = .xcode t →
      (block (variantAssignments arch P.mpPlatform ++ settingsCommands)).run m s₂
        = (block (variantAssignments arch P.mpPlatform ++ (P.branch m).settings choice)).run m s₂ := by
    intro t arch hb
    obtain ⟨hcwd, hI₂⟩ := again t s₁ s₂ hb (hb ▸ h₂) hI₁
    apply block_append_congr _
    intro s₃ h₃
    have kept₃ : ∀ x, x ≠ ARCH_NAME → x ≠ MP_PLATFORM → s₃ x = s₂ x := fun x ha hp =>
      (block _).frame h₃ x (by simp [mem_block_touches, variantAssignments, «export», exporting,
        assign, ha, hp])
    refine agree P s₃ rfl ⟨usable, block_literal h₃ rfl rfl, ?_⟩ ?_ (stable s₂ s₃ ?_ hI₂)
    · rintro rfl
      cases hb
    · rwa [Allowed, kept₃ cwd (by simp) (by simp), hcwd]
    · simp only [List.mem_cons, List.not_mem_nil, or_false]
      rintro x (rfl | rfl | rfl | rfl) <;> exact kept₃ _ (by simp) (by simp)
  cases P with
  | iPhoneOS64 => exact variant _ rfl
  | iPhoneOSs => exact variant _ rfl
  | iPhoneSimulator64 => exact variant _ rfl
  | _ => rfl

/-- **A platform script is one straight line** in an allowed directory. -/
theorem source_branch (usable : P.usableOn m) (allowed : Allowed s) :
    P.source m s = (P.selected (P.branch m) callerFirst).run m s := by
  refine source_eq_of_settings (I := fun _ => True) usable allowed trivial
    (fun _ _ _ _ => trivial) ?_ ?_
  · intro Q s₁ hb hs allowed₁ _
    rw [settings_run_branch hs allowed₁, hb]
  · intro t s₁ s₂ _ h _
    exact ⟨(block _).frame h cwd (by cases t <;> decide), trivial⟩

/-- With the caller's compilers giving way, the line takes the platform's. -/
theorem source_selected (usable : P.usableOn m) (allowed : Allowed s)
    (cxx : TakesPlatform s CXX (P.branch m).coreCXX)
    (cc : TakesPlatform s CC (P.branch m).coreCC) :
    P.source m s = (P.selected (P.branch m) platformFirst).run m s := by
  refine source_eq_of_settings (I := fun s => TakesPlatform s CXX (P.branch m).coreCXX ∧
    TakesPlatform s CC (P.branch m).coreCC) usable allowed ⟨cxx, cc⟩ ?_ ?_ ?_
  · intro s t kept h
    simpa only [TakesPlatform, kept CXX (by simp), kept CC (by simp), kept MP_CROSS (by simp)] using h
  · intro Q s₁ hb hs allowed₁ ⟨hcxx, hcc⟩
    rw [settings_run_selected hs allowed₁ (hb ▸ hcxx) (hb ▸ hcc), hb]
  · intro t s₁ s₂ hb h _
    obtain ⟨hcxx, hcc⟩ := after_xcode h
    rw [hb]
    exact ⟨(block _).frame h cwd (by cases t <;> decide), .inr (.inr hcxx),
      .inr (.inr hcc)⟩

end Platform

end Selected

end MapnikPackaging
