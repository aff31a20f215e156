/-
When a platform script runs to its end.

Under `set -u` a script completes when every variable it expands is set. Most of what
`settings.sh` expands it has assigned before; `Ready` lists what is left: the visibility
flags the Linaro branch reads but does not assign, the two variables the softfp branch
takes from the caller, and the NDK. `Platform.source_completes_iff` says that nothing
else stands in the way.
-/

import MapnikPackaging.Settings.Selected

namespace MapnikPackaging

open Shell Script Var

section Completion

variable {m : Machine} {P : Platform} {s s' : Env Var}

/-- What a platform script needs of the environment it is sourced in. -/
def Ready (m : Machine) (P : Platform) (s : Env Var) : Prop :=
  Allowed s ∧ match P with
    | .linaro => s CXX_VISIBILITY_FLAGS ≠ none
    | .linaroSoftfp => s SYSROOT ≠ none ∧ s SDK_PATH ≠ none
    | .android => ∃ ndk, s ANDROID_NDK_PATH = some ndk ∧ m.isDir ndk = true
    | _ => True

/-- `settings.sh` refuses a directory below `/usr/`, whatever the rest of the environment. -/
theorem settings_refused (h : (block settingsCommands).run m s = .ok s') : Allowed s := by
  obtain ⟨s₁, h₁, -⟩ := block_cons_ok (c := refuseUsr) h
  rw [refuseUsr, when, ite_run_of_eval underUsr_eval] at h₁
  cases hd : occursIn "/usr/" (orDefault (s cwd) "")
  · exact hd
  · rw [hd] at h₁
    cases h₁

/-- The NDK check of `settings.sh`, on a directory and otherwise. -/
theorem requireNdk_run : requireNdk.run m s = .ok s' ↔
    (∃ ndk, s ANDROID_NDK_PATH = some ndk ∧ m.isDir ndk = true) ∧ s' = s := by
  cases hs : s ANDROID_NDK_PATH with
  | none => simp [requireNdk, when, Script.ite, branch, dirTest, Test.eval, expandAll, Word.eval,
      Seg.eval, fetch, hs, Except.map, bind, Except.bind]
  | some ndk =>
    have test : (Test.not (dirTest [ANDROID_NDK_PATH]) : Cond).eval m s = .ok (! m.isDir ndk) := by
      simp [dirTest, Test.eval, expandAll, Word.eval, Seg.eval, fetch, hs, Except.map, bind,
        Except.bind, pure, Except.pure]
    rw [requireNdk, when, ite_run_of_eval test]
    cases hd : m.isDir ndk
    · simp [exit, hd]
    · simp only [Bool.not_true, Bool.false_eq_true, if_false, skip_run, Except.ok.injEq]
      exact ⟨fun h => ⟨⟨ndk, rfl, hd⟩, h.symm⟩, fun h => h.2.symm⟩

namespace Platform

/-- A script that completes was started in an allowed directory. -/
theorem allowed_of_source (h : P.source m s = .ok s') : Allowed s := by
  rw [source, script, commandsWith_eq, List.append_assoc] at h
  obtain ⟨s₁, h₁, h₂⟩ := block_append_ok h
  obtain ⟨s₂, h₃, -⟩ := block_append_ok h₂
  have := settings_refused h₃
  rwa [Allowed, assignments_frame h₁ cwd (by simp)] at this

/-- What `settings.sh` takes from an Apple platform script. -/
def xcodeInputs : List Var :=
  [MP_PLATFORM, ARCH_NAME, XCODE_PLATFORM, ACTIVE_SDK_VERSION, MIN_SDK_VERSION_FLAG]

theorem xcode_completes {t : Bool} (h : AllSet xcodeInputs s) :
    ∃ s', (block ((Branch.xcode t).settings platformFirst)).run m s = .ok s' ∧
      AllSet xcodeInputs s' :=
  completes (by cases t <;> decide) h

theorem variantAssignments_run (arch platform : String) :
    (block (variantAssignments arch platform)).run m s = .ok (Function.update
      (Function.update s ARCH_NAME (some arch)) MP_PLATFORM (some platform)) := by
  simp [variantAssignments, block_cons_run, «export», exporting, assign, Word.eval, Seg.eval,
    Except.map, bind, Except.bind, pure, Except.pure]

/-- An Apple script completes, whether it sources `settings.sh` once or twice. -/
theorem apple_completes (apple : P.isApple = true) :
    ∃ s', (P.selected (P.branch m) platformFirst).run m s = .ok s' := by
  obtain ⟨t, ht⟩ : ∃ t, P.branch m = .xcode t := by
    cases P <;> first | exact ⟨_, rfl⟩ | cases apple
  obtain ⟨s₁, h₁, set₁⟩ : ∃ s₁, (block P.assignments).run m s = .ok s₁ ∧ AllSet xcodeInputs s₁ := by
    refine completes (i := []) ?_ (by simp [AllSet])
    cases P <;> first | decide | cases apple
  obtain ⟨s₂, h₂, set₂⟩ := xcode_completes (t := t) (m := m) set₁
  have again : ∃ s₃, (block (P.rest ((Branch.xcode t).settings platformFirst))).run m s₂ = .ok s₃ := by
    have variant : ∀ arch platform, ∃ s₃, (block (variantAssignments arch platform ++
        (Branch.xcode t).settings platformFirst)).run m s₂ = .ok s₃ := by
      intro arch platform
      have set₃ : AllSet xcodeInputs (Function.update (Function.update s₂ ARCH_NAME (some arch))
          MP_PLATFORM (some platform)) := by
        intro x hx
        by_cases hp : x = MP_PLATFORM
        · simp [hp]
        by_cases ha : x = ARCH_NAME
        · simp [ha]
        simpa [hp, ha] using set₂ x hx
      obtain ⟨s₄, h₄, -⟩ := xcode_completes (t := t) (m := m) set₃
      exact ⟨s₄, by rw [block_append_of_run _ (variantAssignments_run _ _), h₄]⟩
    cases P with
    | macOSX | iPhoneOS | iPhoneSimulator => exact ⟨s₂, rfl⟩
    | iPhoneOS64 | iPhoneOSs | iPhoneSimulator64 => exact variant _ _
    | linux | linaro | linaroSoftfp | android => cases apple
  obtain ⟨s₃, h₃⟩ := again
  refine ⟨s₃, ?_⟩
  rw [selected, ht, commandsWith_eq, List.append_assoc, block_append_of_run _ h₁,
    block_append_of_run _ h₂, h₃]

/-- The softfp script around its branch. -/
theorem selected_softfp : linaroSoftfp.commandsWith (Branch.linaroSoftfp.settings platformFirst) =
    (linaroSoftfpAssignments ++ settingsHead ++ [cleared]) ++ (linaroSoftfpBranch ++
      (settingsPaths ++ Branch.linaroSoftfp.zlib :: settingsCore ++ platformFirst ++ settingsFlags
        ++ settingsVersions ++ [.export MAKE ["make"]])) := by
  simp [commandsWith, Branch.settings, Branch.before, Branch.commands]

/-- The Android script around its check. -/
theorem selected_android : android.commandsWith (Branch.android.settings platformFirst) =
    (androidAssignments ++ settingsHead ++
      [cleared, .export CXX_VISIBILITY_FLAGS [""], .export ldconfig ["true"]]) ++ requireNdk ::
    (androidToolchain ++ settingsPaths ++ Branch.android.zlib :: settingsCore ++ platformFirst
      ++ settingsFlags ++ settingsVersions) := by
  simp [commandsWith, Branch.settings, Branch.before, Branch.commands, androidBranch]

/-- What the straight line of a platform expands without having set it. -/
theorem ready_of_selected (allowed : Allowed s)
    (h : (P.selected (P.branch m) platformFirst).run m s = .ok s') : Ready m P s := by
  refine ⟨allowed, ?_⟩
  cases P with
  | linaro =>
    change (block (linaro.commandsWith (Branch.linaro.settings platformFirst))).run m s = _ at h
    exact block_demands (x := CORE_CXXFLAGS) h rfl rfl
      (w := [CXX_VISIBILITY_FLAGS, " ", CORE_CFLAGS]) (by decide) (by decide)
  | linaroSoftfp =>
    change (block (linaroSoftfp.commandsWith (Branch.linaroSoftfp.settings platformFirst))).run m s
      = _ at h
    rw [selected_softfp] at h
    obtain ⟨s₁, h₁, h₂⟩ := block_append_ok h
    obtain ⟨s₂, h₃, -⟩ := block_append_ok h₂
    constructor
    · rw [← (block _).frame h₁ SYSROOT (by decide)]
      exact block_demands (x := EXTRA_CFLAGS) h₃ rfl rfl (w := ["-fPIC --sysroot ", SYSROOT])
        (by decide) (by decide)
    · rw [← (block _).frame h₁ SDK_PATH (by decide)]
      exact block_demands (x := PATH) h₃ rfl rfl (w := [SDK_PATH, "/bin:", searchPath])
        (by decide) (by decide)
  | android =>
    change (block (android.commandsWith (Branch.android.settings platformFirst))).run m s = _ at h
    rw [selected_android] at h
    obtain ⟨s₁, h₁, h₂⟩ := block_append_ok h
    obtain ⟨s₂, h₃, -⟩ := block_cons_ok h₂
    have ndk := (requireNdk_run.mp h₃).1
    rwa [(block _).frame h₁ ANDROID_NDK_PATH (by decide)] at ndk
  | _ => trivial

/-- The straight line completes from a ready environment. -/
theorem selected_of_ready (ready : Ready m P s) :
    ∃ s', (P.selected (P.branch m) platformFirst).run m s = .ok s' := by
  obtain ⟨-, h⟩ := ready
  have completed : ∀ {c : Cmd} (xs : List Var), AllSet xs s →
      (c.flow xs).any (fun zs => decide ([] ⊆ zs)) = true → ∃ s', c.run m s = .ok s' :=
    fun _ set flows =>
      let ⟨s', hs', _⟩ := completes flows set
      ⟨s', hs'⟩
  cases P with
  | linux =>
    exact completed (c := linux.selected .linux platformFirst) [] (by simp [AllSet])
      (by decide)
  | linaro =>
    exact completed (c := linaro.selected .linaro platformFirst) [CXX_VISIBILITY_FLAGS]
      (by simpa [AllSet] using h) (by decide)
  | linaroSoftfp =>
    exact completed (c := linaroSoftfp.selected .linaroSoftfp platformFirst) [SYSROOT, SDK_PATH]
      (by simpa [AllSet] using h) (by decide)
  | android =>
    obtain ⟨ndk, hndk, dir⟩ := h
    change ∃ s', (block (android.commandsWith (Branch.android.settings platformFirst))).run m s = _
    -- On an NDK directory the check only expands its variable.
    rw [selected_android, block_congr _ _ (d := .command [ANDROID_NDK_PATH])]
    · exact completed [ANDROID_NDK_PATH] (by simp [AllSet, hndk]) (by decide)
    · intro s₁ h₁
      have kept : s₁ ANDROID_NDK_PATH = some ndk := by
        rw [(block _).frame h₁ ANDROID_NDK_PATH (by decide), hndk]
      rw [requireNdk_run.mpr ⟨⟨ndk, kept, dir⟩, rfl⟩]
      simp [command, Word.eval, Seg.eval, fetch, kept, Except.map, bind, Except.bind, pure,
        Except.pure]
  | _ => exact apple_completes rfl

/-- **A platform script completes exactly from a ready environment**, when the caller's
compilers give way. -/
theorem source_completes_iff (usable : P.usableOn m)
    (cxx : TakesPlatform s CXX (P.branch m).coreCXX) (cc : TakesPlatform s CC (P.branch m).coreCC) :
    (∃ s', P.source m s = .ok s') ↔ Ready m P s := by
  constructor
  · rintro ⟨s', h⟩
    have allowed := allowed_of_source h
    rw [source_selected usable allowed cxx cc] at h
    exact ready_of_selected allowed h
  · intro ready
    rw [source_selected usable ready.1 cxx cc]
    exact selected_of_ready ready

end Platform

end Completion

end MapnikPackaging
