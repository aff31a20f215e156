/-
Values a sourced platform leaves.

Whatever compilers the caller brought, a platform script that completes fixes the names of
the platform and of its host, the job count, the directory and the build prefix, and it
leaves the working variables of the build scripts alone. The compilers are the platform's
where the caller's give way, and the caller's otherwise.
-/

import MapnikPackaging.Settings.Leaves

namespace MapnikPackaging

open Shell Script Var

namespace Platform

section Values

variable {m : Machine} {P : Platform} {s s' : Env Var}

/-- Inputs of the caller and working variables of the build scripts. -/
def outside : List Var :=
  [MP_CROSS, LTO, SYSROOT, ANDROID_NDK_PATH, TRAVIS_COMMIT, OLD_PLATFORM, CURRENT_DIR, CUR_DIR,
    CROSS_FLAGS, NATIVE_BUILD_DIR, NATIVE_PROTOC]

theorem script_outside : ∀ v ∈ outside, v ∉ P.script.touches := by
  cases P <;> decide

/-- No platform writes what lies outside. -/
theorem source_outside (h : P.source m s = .ok s') {v : Var} (hv : v ∈ outside) : s' v = s v :=
  P.script.frame h v (script_outside v hv)

/-- A completed script went through `settings.sh` along its branch. -/
theorem source_last_pass (usable : P.usableOn m) (h : P.source m s = .ok s') :
    ∃ s₁ s₂ s₃, LastPass m P (P.branch m) callerFirst s s' s₁ s₂ s₃ := by
  rw [source_branch usable (allowed_of_source h)] at h
  exact last_pass h

/-- A variable `settings.sh` does not touch is as the platform script assigned it. -/
theorem LastPass.assignment {b : Branch} {s₁ s₂ s₃ : Env Var}
    (L : LastPass m P b callerFirst s s' s₁ s₂ s₃) {v : Var}
    (names : v ∉ [MP_PLATFORM, ARCH_NAME, MAKE])
    (fresh : v ∉ (block (b.settings callerFirst)).touches) : s' v = s₁ v := by
  simp only [List.mem_cons, List.not_mem_nil, or_false, not_or] at names
  obtain ⟨hp, ha, hm⟩ := names
  rw [L.final v hm, (block _).frame L.pass v fresh, L.through v hp ha fresh]

/-- `settings.sh` writes none of the names. -/
theorem settings_names {b : Branch} :
    ∀ v ∈ [MP_PLATFORM, ARCH_NAME, HOST_PLATFORM, BOOST_ARCH, HOST_ARG],
      v ∉ (block (b.settings callerFirst)).touches := by
  cases b with
  | xcode t => cases t <;> decide
  | _ => decide

theorem source_platform (usable : P.usableOn m) (h : P.source m s = .ok s') :
    s' MP_PLATFORM = some P.mpPlatform ∧ s' ARCH_NAME = some P.archName := by
  obtain ⟨s₁, s₂, s₃, L⟩ := source_last_pass usable h
  rw [L.final _ (by decide), L.final _ (by decide),
    (block _).frame L.pass _ (settings_names _ (by decide)),
    (block _).frame L.pass _ (settings_names _ (by decide))]
  exact ⟨L.platform, L.arch⟩

/-- `BOOST_ARCH`, which tells a cross build from a native one. -/
def boostArch (P : Platform) : String := if P.isArm then "arm" else "x86"

/-- Android asks the kernel where it is cross-compiled from. -/
theorem android_host {s₁ : Env Var} (usable : android.usableOn m)
    (h : (block androidAssignments).run m s = .ok s₁) :
    s₁ HOST_PLATFORM = some (android.host m).mpPlatform := by
  have split : androidAssignments = androidAssignments.take 7 ++ androidHost ::
      androidAssignments.drop 8 := rfl
  rw [split] at h
  obtain ⟨s₂, h₂, h⟩ := block_append_ok h
  obtain ⟨s₃, h₃, h₄⟩ := block_cons_ok h
  have kernel : s₂ UNAME = some m.uname_s := block_ask h₂ rfl rfl
  rw [(block _).frame h₄ HOST_PLATFORM (by decide)]
  rw [androidHost, ite_run_of_eval (is_eval _ _ _ kernel)] at h₃
  rcases usable with linux | darwin
  · rw [ite_run_of_eval (is_eval _ _ _ kernel)] at h₃
    simp only [linux, String.reduceEq, decide_false, decide_true, Bool.false_eq_true, if_false,
      if_true, export_lit_run, Except.ok.injEq] at h₃
    simp [← h₃, host, linux, mpPlatform]
  · simp only [darwin, decide_true, if_true, export_lit_run, Except.ok.injEq] at h₃
    simp [← h₃, host, darwin, mpPlatform]

theorem source_host (usable : P.usableOn m) (h : P.source m s = .ok s') :
    s' HOST_PLATFORM = some (P.host m).mpPlatform := by
  obtain ⟨s₁, s₂, s₃, L⟩ := source_last_pass usable h
  rw [L.assignment (by decide) (settings_names _ (by decide))]
  have assigned := L.assigned
  cases P with
  | android => exact android_host usable assigned
  | _ => exact block_literal assigned rfl rfl

theorem source_jobs (usable : P.usableOn m) (h : P.source m s = .ok s') :
    s' JOBS = some m.nprocs := by
  obtain ⟨s₁, s₂, s₃, L⟩ := source_last_pass usable h
  rw [L.final _ (by decide)]
  have pass := L.pass
  cases hb : P.branch m with
  | xcode t =>
    rw [hb] at pass
    cases t <;> exact block_ask pass rfl rfl
  | _ =>
    rw [hb] at pass
    exact block_ask pass rfl rfl

theorem source_packages (usable : P.usableOn m) (h : P.source m s = .ok s') :
    s' PACKAGES = some (m.rootdir ++ "/out/packages") := by
  obtain ⟨s₁, s₂, s₃, L⟩ := source_last_pass usable h
  rw [L.final _ (by decide)]
  have value : ∀ {b : Branch} {s s' : Env Var}, (block (b.settings callerFirst)).run m s = .ok s' →
      s' PACKAGES = some (m.rootdir ++ "/out/packages") := by
    intro b s s' h
    have root : s' ROOTDIR = some m.rootdir := by
      cases b with
      | xcode t => cases t <;> exact block_ask h rfl rfl
      | _ => exact block_ask h rfl rfl
    have expand : Word.eval m s' [ROOTDIR, "/out/packages"] = .ok (m.rootdir ++ "/out/packages") := by
      simp [Word.eval_val root, Except.map]
    cases b with
    | xcode t =>
      cases t <;> exact block_value_of_eval h rfl rfl (by decide) (by decide) expand
    | _ => exact block_value_of_eval h rfl rfl (by decide) (by decide) expand
  exact value L.pass

/-! ### The directory -/

/-- Only the Linaro branches change the directory. -/
theorem source_cwd (usable : P.usableOn m) (stays : P ≠ linaro ∧ P ≠ linaroSoftfp)
    (h : P.source m s = .ok s') : s' cwd = s cwd := by
  rw [source_branch usable (allowed_of_source h)] at h
  apply (P.selected _ callerFirst).frame h cwd
  cases P with
  | linux | android => simp only [branch]; decide
  | linaro => exact absurd rfl stays.1
  | linaroSoftfp => exact absurd rfl stays.2
  | _ =>
    simp only [branch]
    cases m.isDir (m.xcode_select ++ "/Toolchains/") <;> decide

/-- They end in the directory of the checkout. -/
theorem source_cwd_linaro (usable : P.usableOn m) (moves : P = linaro ∨ P = linaroSoftfp)
    (h : P.source m s = .ok s') : s' cwd = some m.rootdir := by
  obtain ⟨s₁, s₂, s₃, L⟩ := source_last_pass usable h
  rw [L.final _ (by decide)]
  have pass := L.pass
  rcases moves with rfl | rfl <;> simp only [branch] at pass
  all_goals
    have root : s₃ ROOTDIR = some m.rootdir := block_ask pass rfl rfl
    exact block_value_of_eval pass rfl rfl (by decide) (by decide)
      (w := [ROOTDIR]) (by simp [Word.eval_val root, Except.map])

/-! ### The compilers -/

/-- The platform's compilers, where the caller's give way. -/
theorem source_compilers (usable : P.usableOn m)
    (cxx : TakesPlatform s CXX (P.branch m).coreCXX) (cc : TakesPlatform s CC (P.branch m).coreCC)
    (h : P.source m s = .ok s') :
    s' CXX = some (P.branch m).coreCXX ∧ s' CC = some (P.branch m).coreCC := by
  rw [source_selected usable (allowed_of_source h) cxx cc] at h
  obtain ⟨s₁, s₂, s₃, L⟩ := last_pass h
  rw [L.final _ (by decide), L.final _ (by decide)]
  have selects : Selects m P s₂ := by
    refine ⟨usable, L.platform, ?_⟩
    rintro rfl
    rw [L.through MP_ANDROID_TARGET (by decide) (by decide) (by simp only [branch]; decide)]
    exact block_literal L.assigned rfl rfl
  have pass := L.pass
  simp only [Branch.settings, List.append_assoc] at pass
  obtain ⟨s₄, h₄, pass⟩ := block_append_ok pass
  obtain ⟨s₅, h₅, pass⟩ := block_append_ok pass
  obtain ⟨coreCC, coreCXX⟩ := core_value selects h₄
  have chosen : s₅ CXX = some (P.branch m).coreCXX ∧ s₅ CC = some (P.branch m).coreCC := by
    have kept : ∀ v ∈ [CORE_CC, CORE_CXX], s₅ v = s₄ v := fun v hv =>
      (block platformFirst).frame h₅ v ((by decide : ∀ v ∈ [CORE_CC, CORE_CXX],
        v ∉ (block platformFirst).touches) v hv)
    constructor
    · exact block_value_of_eval h₅ rfl rfl (by decide) (by decide) (w := [CORE_CXX])
        (by simp [Word.eval_val ((kept _ (by decide)).trans coreCXX), Except.map])
    · exact block_value_of_eval h₅ rfl rfl (by decide) (by decide) (w := [CORE_CC])
        (by simp [Word.eval_val ((kept _ (by decide)).trans coreCC), Except.map])
  rwa [(block _).frame pass CXX (by decide), (block _).frame pass CC (by decide)]

/-- A compiler command that is not asked to choose leaves the compiler alone. -/
theorem selectCompiler_keeps {x core : Var} {fallback : String} (on : ¬ Off (s x))
    (cross : Off (s MP_CROSS)) (h : (selectCompiler x core fallback).run m s = .ok s') : s' = s := by
  have test : (Test.or (isOff x) (.flag MP_CROSS) : Cond).eval m s = .ok false := by
    simp [Test.eval, on, cross, bind, Except.bind]
  rw [selectCompiler, when, ite_run_of_eval test] at h
  simpa using h.symm

/-- The commands of `settings.sh` that write a compiler. -/
theorem settings_compilers : ∀ c ∈ settingsCommands, c = clearCxx ∨
    c = selectCompiler CXX CORE_CXX "c++" ∨ c = selectCompiler CC CORE_CC "cc" ∨
    ∀ x ∈ [CC, CXX, MP_CROSS], x ∉ c.touches := by
  have quiet : ∀ x ∈ [CC, CXX, MP_CROSS], x ∉ (block (refuseUsr :: settingsHead ++ platformBranch ::
      settingsPaths ++ zlibPath :: settingsCore ++ settingsFlags ++ settingsVersions)).touches := by
    decide
  intro c hc
  by_cases hq : c ∈ refuseUsr :: settingsHead ++ platformBranch :: settingsPaths ++ zlibPath ::
      settingsCore ++ settingsFlags ++ settingsVersions
  · exact .inr (.inr (.inr fun x hx hmem => quiet x hx (mem_block_touches.mpr ⟨c, hq, hmem⟩)))
  · simp only [settingsCommands, List.mem_append, List.mem_cons, not_or] at hc hq
    tauto

/-- A compiler that is set, with no cross compiler asked for. -/
def Brought (x : Var) (s t : Env Var) : Prop := t x = s x ∧ t MP_CROSS = s MP_CROSS

/-- Each command of `settings.sh` keeps it. -/
theorem settings_brought {x : Var} (hx : x = CC ∨ x = CXX) (on : ¬ Off (s x))
    (cross : Off (s MP_CROSS)) {t t' : Env Var} :
    ∀ c ∈ settingsCommands, c.run m t = .ok t' → Brought x s t → Brought x s t' := by
  intro c hc ht hJ
  have onT : ¬ Off (t x) := by rwa [hJ.1]
  have crossT : Off (t MP_CROSS) := by rwa [hJ.2]
  rcases settings_compilers c hc with rfl | rfl | rfl | quiet
  · rcases hx with rfl | rfl
    · exact ⟨(clearCxx.frame ht CC (by decide)).trans hJ.1,
        (clearCxx.frame ht MP_CROSS (by decide)).trans hJ.2⟩
    · rw [clearCxx, when, ite_run_of_eval (isOff_eval CXX)] at ht
      simp only [onT, decide_false, Bool.false_eq_true, if_false, skip_run, Except.ok.injEq] at ht
      rwa [← ht]
  · rcases hx with rfl | rfl
    · exact ⟨(Script.frame _ ht CC (by decide)).trans hJ.1,
        (Script.frame _ ht MP_CROSS (by decide)).trans hJ.2⟩
    · rwa [selectCompiler_keeps onT crossT ht]
  · rcases hx with rfl | rfl
    · rwa [selectCompiler_keeps onT crossT ht]
    · exact ⟨(Script.frame _ ht CXX (by decide)).trans hJ.1,
        (Script.frame _ ht MP_CROSS (by decide)).trans hJ.2⟩
  · refine ⟨(c.frame ht x (quiet x ?_)).trans hJ.1, (c.frame ht _ (quiet _ (by decide))).trans hJ.2⟩
    rcases hx with rfl | rfl <;> decide

/-- **A compiler the caller brought is kept** unless a cross compiler is asked for. -/
theorem source_keeps {x : Var} (hx : x = CC ∨ x = CXX) (on : ¬ Off (s x)) (cross : Off (s MP_CROSS))
    (h : P.source m s = .ok s') : s' x = s x := by
  have quiet : ∀ {cs : List Cmd}, (∀ v ∈ [CC, CXX, MP_CROSS], v ∉ (block cs).touches) →
      ∀ c ∈ cs, ∀ t t', c.run m t = .ok t' → Brought x s t → Brought x s t' := by
    intro cs fresh c hc t t' ht hJ
    have untouched : ∀ v ∈ [CC, CXX, MP_CROSS], t' v = t v := fun v hv =>
      c.frame ht v fun hmem => fresh v hv (mem_block_touches.mpr ⟨c, hc, hmem⟩)
    refine ⟨(untouched x ?_).trans hJ.1, (untouched _ (by decide)).trans hJ.2⟩
    rcases hx with rfl | rfl <;> decide
  have step : ∀ c ∈ P.commandsWith settingsCommands, ∀ t t', c.run m t = .ok t' →
      Brought x s t → Brought x s t' := by
    have settings : ∀ c ∈ settingsCommands, ∀ t t', c.run m t = .ok t' →
        Brought x s t → Brought x s t' := fun c hc t t' => settings_brought hx on cross c hc
    have variant : ∀ c ∈ variantAssignments P.archName P.mpPlatform ++ settingsCommands, ∀ t t',
        c.run m t = .ok t' → Brought x s t → Brought x s t' := by
      intro c hc
      rcases List.mem_append.mp hc with hc | hc
      · exact quiet (by simp [mem_block_touches, variantAssignments, «export», exporting, assign])
          c hc
      · exact settings c hc
    intro c hc
    simp only [commandsWith_eq, List.mem_append] at hc
    rcases hc with (hc | hc) | hc
    · exact quiet (by cases P <;> decide) c hc
    · exact settings c hc
    · cases P with
      | linux | android | macOSX | iPhoneOS | iPhoneSimulator => cases hc
      | linaro | linaroSoftfp => exact quiet (by decide) c hc
      | iPhoneOS64 | iPhoneOSs | iPhoneSimulator64 => exact variant c hc
  exact (block_preserves step h ⟨rfl, rfl⟩).1

/-- The compiler after a completed script, in the two cases. -/
theorem source_compiler_eq (usable : P.usableOn m) (h : P.source m s = .ok s') :
    (s' CXX = some (P.branch m).coreCXX ∧ s' CC = some (P.branch m).coreCC ↔
      TakesPlatform s CXX (P.branch m).coreCXX ∧ TakesPlatform s CC (P.branch m).coreCC) := by
  constructor
  · rintro ⟨cxx, cc⟩
    have takes : ∀ {x core}, x = CC ∨ x = CXX → s' x = some core → TakesPlatform s x core := by
      intro x core hx eq
      by_cases on : Off (s x)
      · exact .inl on
      by_cases cross : Off (s MP_CROSS)
      · exact .inr (.inr (by rw [← source_keeps hx on cross h, eq]))
      · exact .inr (.inl cross)
    exact ⟨takes (.inr rfl) cxx, takes (.inl rfl) cc⟩
  · rintro ⟨cxx, cc⟩
    exact source_compilers usable cxx cc h

end Values

end Platform

end MapnikPackaging
