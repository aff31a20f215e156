/-
What a platform script leaves behind for the next one.

A branch of `settings.sh` assigns some of the variables the file exports and lets the
others through. `Platform.inherits` lists, for each platform, the exported variables it
lets through; `Platform.writes` lists what it writes to those some other platform lets
through, and to the inputs no platform changes. `source_leaves` and `source_agree` are
the two facts the composition of platforms rests on: the first says that the table is
what the script does, the second that a run is fixed by what it inherits.
-/

import MapnikPackaging.Settings.Completion
import Mathlib.Data.List.Dedup

namespace MapnikPackaging

open Shell Script Var

/-- The variables some command of `settings.sh` exports, but for the search path. -/
def settingsExports : List Var := ((block settingsCommands).exports.filter (· ≠ PATH)).dedup

theorem mem_settingsExports {v : Var} :
    v ∈ settingsExports ↔ v ∈ (block settingsCommands).exports ∧ v ≠ PATH := by
  simp [settingsExports]

namespace Platform

/-- The exported variables the branch of a platform neither assigns nor unsets. -/
def inherits (m : Machine) : Platform → List Var
  | linux => [ax_cv_c_float_words_bigendian, ldconfig, PLATFORM_PREFIX, NDK_PACKAGE_DIR, LD, NM,
      XCODE_PREFIX, SDK_ROOT, PLATFORM_SDK, TOOLCHAIN_ROOT, SDK_PATH]
  | linaro => [ax_cv_c_float_words_bigendian, ldconfig, PLATFORM_PREFIX, NDK_PACKAGE_DIR,
      XCODE_PREFIX, SDK_ROOT, PLATFORM_SDK, TOOLCHAIN_ROOT, CXX_VISIBILITY_FLAGS]
  | linaroSoftfp => [ax_cv_c_float_words_bigendian, ldconfig, PLATFORM_PREFIX, NDK_PACKAGE_DIR,
      XCODE_PREFIX, SDK_ROOT, PLATFORM_SDK, TOOLCHAIN_ROOT, SDK_PATH]
  | android => [ax_cv_c_float_words_bigendian, XCODE_PREFIX, SDK_ROOT, PLATFORM_SDK,
      TOOLCHAIN_ROOT]
  | _ => [ax_cv_c_float_words_bigendian, ldconfig, PLATFORM_PREFIX, NDK_PACKAGE_DIR, NM] ++
      if m.isDir (m.xcode_select ++ "/Toolchains/") then [] else [SDK_ROOT, PLATFORM_SDK]

/-- The inputs of the caller a platform reads and no platform changes. -/
def callerInputs : List Var := [LTO, SYSROOT, ANDROID_NDK_PATH]

/-- Everything one platform can leave for another to see. -/
def watched : List Var :=
  callerInputs ++ [cwd, ax_cv_c_float_words_bigendian, CXX_VISIBILITY_FLAGS, SDK_PATH, ldconfig,
    PLATFORM_PREFIX, NDK_PACKAGE_DIR, LD, NM, XCODE_PREFIX, SDK_ROOT, PLATFORM_SDK, TOOLCHAIN_ROOT]

/-- `xcrun --sdk`. -/
def sdk : Platform → String
  | iPhoneOS | iPhoneOS64 | iPhoneOSs => "iphoneos"
  | iPhoneSimulator | iPhoneSimulator64 => "iphonesimulator"
  | _ => "macosx"

/-- What a platform writes to the watched variables; `none` is an `unset`. -/
def writes (m : Machine) (s : Env Var) : Platform → List (Var × Option String)
  | linux => [
    (CXX_VISIBILITY_FLAGS, some "-fvisibility-inlines-hidden -fvisibility=hidden -fno-common")]
  | linaro => [
    (cwd, some m.rootdir),
    (SDK_PATH, some (m.rootdir ++ "/out/packages/linaro-prebuilt-sysroot-2013.07-2")),
    (LD, some "arm-linux-gnueabihf-ld"),
    (NM, some "arm-linux-gnueabihf-nm")]
  | linaroSoftfp => [
    (cwd, some m.rootdir),
    (LD, some "arm-linux-gnueabi-ld"),
    (NM, some "arm-linux-gnueabi-nm"),
    (CXX_VISIBILITY_FLAGS, some "")]
  | android => [
    (CXX_VISIBILITY_FLAGS, some ""),
    (ldconfig, some "true"),
    (PLATFORM_PREFIX, (s ANDROID_NDK_PATH).map (· ++ "/active-platform/")),
    (NDK_PACKAGE_DIR, (s ANDROID_NDK_PATH).map (· ++ "/package-dir/")),
    (SDK_PATH, some ""),
    (LD, some "arm-linux-androideabi-ld"),
    (NM, some "arm-linux-androideabi-nm")]
  | P =>
    let platformSdk := P.base.mpPlatform ++ m.xcrun P.sdk ++ ".sdk"
    let sdkRoot := m.xcode_select ++ "/Platforms/" ++ P.base.mpPlatform ++ ".platform/Developer"
    [(XCODE_PREFIX, some m.xcode_select),
     (CXX_VISIBILITY_FLAGS, some "-fvisibility-inlines-hidden -fvisibility=hidden -fno-common"),
     (LD, none)] ++
    if m.isDir (m.xcode_select ++ "/Toolchains/") then [
      (TOOLCHAIN_ROOT, some (m.xcode_select ++ "/Toolchains/XcodeDefault.xctoolchain/usr/bin")),
      (SDK_ROOT, some sdkRoot),
      (PLATFORM_SDK, some platformSdk),
      (SDK_PATH, some (sdkRoot ++ "/SDKs/" ++ platformSdk))]
    else [
      (TOOLCHAIN_ROOT, some (m.xcode_select ++ "/usr/bin")),
      (SDK_PATH, some (m.xcode_select ++ "/usr/"))]

/-- The variables of the table; `toolchains` says whether Xcode has that directory. -/
def written (toolchains : Bool) : Platform → List Var
  | linux => [CXX_VISIBILITY_FLAGS]
  | linaro => [cwd, SDK_PATH, LD, NM]
  | linaroSoftfp => [cwd, LD, NM, CXX_VISIBILITY_FLAGS]
  | android => [CXX_VISIBILITY_FLAGS, ldconfig, PLATFORM_PREFIX, NDK_PACKAGE_DIR, SDK_PATH, LD, NM]
  | _ => [XCODE_PREFIX, CXX_VISIBILITY_FLAGS, LD] ++
      if toolchains then [TOOLCHAIN_ROOT, SDK_ROOT, PLATFORM_SDK, SDK_PATH]
      else [TOOLCHAIN_ROOT, SDK_PATH]

theorem writes_keys (m : Machine) (s : Env Var) (P : Platform) :
    (P.writes m s).map Prod.fst = P.written (m.isDir (m.xcode_select ++ "/Toolchains/")) := by
  cases P with
  | linux | linaro | linaroSoftfp | android => rfl
  | _ =>
    simp only [writes, written]
    cases m.isDir (m.xcode_select ++ "/Toolchains/") <;> rfl

/-- The watched variables after a platform, from those before. -/
def leaves (m : Machine) (P : Platform) (s : Env Var) : Env Var := fun v =>
  match (P.writes m s).find? (·.1 = v) with
  | some p => p.2
  | none => s v

section Passes

variable {m : Machine} {P : Platform} {b : Branch} {choice : List Cmd} {s s' : Env Var}

/-- The last pass of a platform script through `settings.sh`: `s₁` is what the script has
assigned before the first pass, `s₂` and `s₃` are the two ends of the last. It sees the
platform's own names and otherwise what the script assigned first. -/
structure LastPass (m : Machine) (P : Platform) (b : Branch) (choice : List Cmd)
    (s s' s₁ s₂ s₃ : Env Var) : Prop where
  assigned : (block P.assignments).run m s = .ok s₁
  pass : (block (b.settings choice)).run m s₂ = .ok s₃
  platform : s₂ MP_PLATFORM = some P.mpPlatform
  arch : s₂ ARCH_NAME = some P.archName
  through : ∀ v, v ≠ MP_PLATFORM → v ≠ ARCH_NAME → v ∉ (block (b.settings choice)).touches →
    s₂ v = s₁ v
  final : ∀ v, v ≠ MAKE → s' v = s₃ v

theorem last_pass (h : (P.selected b choice).run m s = .ok s') :
    ∃ s₁ s₂ s₃, LastPass m P b choice s s' s₁ s₂ s₃ := by
  rw [selected, commandsWith_eq, List.append_assoc] at h
  obtain ⟨s₁, h₁, h⟩ := block_append_ok h
  obtain ⟨s₂, h₂, h⟩ := block_append_ok h
  have twice : (block (variantAssignments P.archName P.mpPlatform ++ b.settings choice)).run m s₂
      = .ok s' → ∃ s₁ s₂ s₃, LastPass m P b choice s s' s₁ s₂ s₃ := by
    intro h
    obtain ⟨s₃, h₃, h₄⟩ := block_append_ok h
    rw [variantAssignments_run] at h₃
    have hs₃ := Except.ok.inj h₃
    refine ⟨s₁, s₃, s', h₁, h₄, ?_, ?_, fun v hp ha hv => ?_, fun _ _ => rfl⟩
    · simp [← hs₃]
    · simp [← hs₃]
    · simp [← hs₃, hp, ha, (block _).frame h₂ v hv]
  cases P with
  | linux | android | macOSX | iPhoneOS | iPhoneSimulator =>
    cases h
    exact ⟨s₁, s₁, s₂, h₁, h₂, block_literal h₁ rfl rfl, block_literal h₁ rfl rfl,
      fun _ _ _ _ => rfl, fun _ _ => rfl⟩
  | linaro | linaroSoftfp =>
    refine ⟨s₁, s₁, s₂, h₁, h₂, block_literal h₁ rfl rfl, block_literal h₁ rfl rfl,
      fun _ _ _ _ => rfl, fun v hv => ?_⟩
    exact (block [(.export MAKE ["make"] : Cmd)]).frame h v
      (by simp [mem_block_touches, «export», exporting, assign, hv])
  | iPhoneOS64 | iPhoneOSs | iPhoneSimulator64 => exact twice h

/-- A variable the whole script leaves alone is the same all along. -/
theorem LastPass.input {s₁ s₂ s₃ : Env Var} (L : LastPass m P b choice s s' s₁ s₂ s₃) {v : Var}
    (names : v ∉ [MP_PLATFORM, ARCH_NAME, MAKE]) (assigned : v ∉ (block P.assignments).touches)
    (pass : v ∉ (block (b.settings choice)).touches) : s₃ v = s v ∧ s' v = s v := by
  simp only [List.mem_cons, List.not_mem_nil, or_false, not_or] at names
  obtain ⟨hp, ha, hm⟩ := names
  have h₃ : s₃ v = s v := by
    rw [(block _).frame L.pass v pass, L.through v hp ha pass, (block _).frame L.assigned v assigned]
  exact ⟨h₃, (L.final v hm).trans h₃⟩

/-- The Linaro sysroot below `ROOTDIR`. -/
theorem linaro_writes {s₂ s₃ : Env Var}
    (h : (block (Branch.linaro.settings platformFirst)).run m s₂ = .ok s₃) :
    s₃ cwd = some m.rootdir ∧
      s₃ SDK_PATH = some (m.rootdir ++ "/out/packages/linaro-prebuilt-sysroot-2013.07-2") := by
  have root : s₃ ROOTDIR = some m.rootdir := block_ask h rfl rfl
  have packages : s₃ PACKAGES = some (m.rootdir ++ "/out/packages") :=
    block_value_of_eval h rfl rfl (by decide) (by decide)
      (w := [ROOTDIR, "/out/packages"]) (by simp [Word.eval_val root, Except.map])
  constructor
  · exact block_value_of_eval h rfl rfl (by decide) (by decide)
      (w := [ROOTDIR]) (by simp [Word.eval_val root, Except.map])
  · exact block_value_of_eval h rfl rfl (by decide) (by decide)
      (w := [PACKAGES, "/linaro-prebuilt-sysroot-2013.07-2"])
      (by simp [Word.eval_val packages, Except.map, String.append_assoc])

theorem softfp_writes {s₂ s₃ : Env Var}
    (h : (block (Branch.linaroSoftfp.settings platformFirst)).run m s₂ = .ok s₃) :
    s₃ cwd = some m.rootdir := by
  have root : s₃ ROOTDIR = some m.rootdir := block_ask h rfl rfl
  exact block_value_of_eval h rfl rfl (by decide) (by decide)
    (w := [ROOTDIR]) (by simp [Word.eval_val root, Except.map])

theorem android_writes {s₂ s₃ : Env Var} {ndk : String}
    (h : (block (Branch.android.settings platformFirst)).run m s₂ = .ok s₃)
    (target : s₃ MP_ANDROID_TARGET = some "arm") (hndk : s₃ ANDROID_NDK_PATH = some ndk) :
    s₃ PLATFORM_PREFIX = some (ndk ++ "/active-platform/") ∧
      s₃ NDK_PACKAGE_DIR = some (ndk ++ "/package-dir/") ∧
      s₃ LD = some "arm-linux-androideabi-ld" ∧ s₃ NM = some "arm-linux-androideabi-nm" := by
  refine ⟨?_, ?_, ?_, ?_⟩
  · exact block_value_of_eval h rfl rfl (by decide) (by decide)
      (w := [ANDROID_NDK_PATH, "/active-platform/"]) (by simp [Word.eval_val hndk, Except.map])
  · exact block_value_of_eval h rfl rfl (by decide) (by decide)
      (w := [ANDROID_NDK_PATH, "/package-dir/"]) (by simp [Word.eval_val hndk, Except.map])
  · exact block_value_of_eval h rfl rfl (by decide) (by decide)
      (w := [MP_ANDROID_TARGET, "-linux-androideabi-ld"])
      (by simp [Word.eval_val target, Except.map])
  · exact block_value_of_eval h rfl rfl (by decide) (by decide)
      (w := [MP_ANDROID_TARGET, "-linux-androideabi-nm"])
      (by simp [Word.eval_val target, Except.map])

/-- The Xcode paths, with and without a `Toolchains` directory. -/
theorem xcode_writes {s₂ s₃ : Env Var} {t : Bool} {name version : String}
    (h : (block ((Branch.xcode t).settings platformFirst)).run m s₂ = .ok s₃)
    (hname : s₃ XCODE_PLATFORM = some name) (hversion : s₃ ACTIVE_SDK_VERSION = some version) :
    s₃ XCODE_PREFIX = some m.xcode_select ∧
    s₃ CXX_VISIBILITY_FLAGS
      = some "-fvisibility-inlines-hidden -fvisibility=hidden -fno-common" ∧
    s₃ LD = none ∧
    if t then
      s₃ TOOLCHAIN_ROOT = some (m.xcode_select ++ "/Toolchains/XcodeDefault.xctoolchain/usr/bin") ∧
      s₃ SDK_ROOT = some (m.xcode_select ++ "/Platforms/" ++ name ++ ".platform/Developer") ∧
      s₃ PLATFORM_SDK = some (name ++ version ++ ".sdk") ∧
      s₃ SDK_PATH = some (m.xcode_select ++ "/Platforms/" ++ name ++ ".platform/Developer" ++
        "/SDKs/" ++ (name ++ version ++ ".sdk"))
    else
      s₃ TOOLCHAIN_ROOT = some (m.xcode_select ++ "/usr/bin") ∧
      s₃ SDK_PATH = some (m.xcode_select ++ "/usr/") := by
  have xcode : s₃ XCODE_PREFIX = some m.xcode_select := by cases t <;> exact block_ask h rfl rfl
  refine ⟨xcode, by cases t <;> exact block_literal h rfl rfl,
    by cases t <;> exact block_unset h rfl, ?_⟩
  cases t with
  | false =>
    refine ⟨?_, ?_⟩
    · exact block_value_of_eval h rfl rfl (by decide) (by decide)
        (w := [XCODE_PREFIX, "/usr/bin"]) (by simp [Word.eval_val xcode, Except.map])
    · exact block_value_of_eval h rfl rfl (by decide) (by decide)
        (w := [XCODE_PREFIX, "/usr/"]) (by simp [Word.eval_val xcode, Except.map])
  | true =>
    have root : s₃ SDK_ROOT
        = some (m.xcode_select ++ "/Platforms/" ++ name ++ ".platform/Developer") :=
      block_value_of_eval h rfl rfl (by decide) (by decide)
        (w := [XCODE_PREFIX, "/Platforms/", XCODE_PLATFORM, ".platform/Developer"])
        (by simp [Word.eval_val xcode, Word.eval_val hname, Except.map, String.append_assoc])
    have sdk : s₃ PLATFORM_SDK = some (name ++ version ++ ".sdk") :=
      block_value_of_eval h rfl rfl (by decide) (by decide)
        (w := [XCODE_PLATFORM, ACTIVE_SDK_VERSION, ".sdk"])
        (by simp [Word.eval_val hname, Word.eval_val hversion, Except.map, String.append_assoc])
    refine ⟨?_, root, sdk, ?_⟩
    · exact block_value_of_eval h rfl rfl (by decide) (by decide)
        (w := [XCODE_PREFIX, "/Toolchains/XcodeDefault.xctoolchain/usr/bin"])
        (by simp [Word.eval_val xcode, Except.map])
    · exact block_value_of_eval h rfl rfl (by decide) (by decide)
        (w := [SDK_ROOT, "/SDKs/", PLATFORM_SDK])
        (by simp only [Word.eval_val root, Word.eval_lit, Word.eval_val sdk, Word.eval_nil,
          Except.map, String.append_empty, String.append_assoc])

/-- What an Apple script asks `xcrun` for, and under which name. -/
theorem apple_assignments {s₁ : Env Var} (apple : P.isApple = true)
    (h : (block P.assignments).run m s = .ok s₁) :
    s₁ XCODE_PLATFORM = some P.base.mpPlatform ∧ s₁ ACTIVE_SDK_VERSION = some (m.xcrun P.sdk) := by
  have platform : s₁ MP_PLATFORM = some P.base.mpPlatform := by
    cases P <;> exact block_literal h rfl rfl
  constructor
  · cases P with
    | linux | linaro | linaroSoftfp | android => cases apple
    | _ =>
      refine block_value_of_eval h rfl rfl (by decide) (by decide) (w := [MP_PLATFORM]) ?_
      simp [Word.eval_val platform, Except.map]
  · cases P with
    | linux | linaro | linaroSoftfp | android => cases apple
    | macOSX => exact block_ask (f := (Machine.xcrun · "macosx")) h rfl rfl
    | iPhoneOS | iPhoneOS64 | iPhoneOSs =>
      exact block_ask (f := (Machine.xcrun · "iphoneos")) h rfl rfl
    | iPhoneSimulator | iPhoneSimulator64 =>
      exact block_ask (f := (Machine.xcrun · "iphonesimulator")) h rfl rfl

/-- Both are still there at the end of the last pass. -/
theorem LastPass.xcode {t : Bool} {s₁ s₂ s₃ : Env Var}
    (L : LastPass m P (.xcode t) platformFirst s s' s₁ s₂ s₃) (apple : P.isApple = true) :
    s₃ XCODE_PLATFORM = some P.base.mpPlatform ∧ s₃ ACTIVE_SDK_VERSION = some (m.xcrun P.sdk) := by
  have kept : ∀ v ∈ [XCODE_PLATFORM, ACTIVE_SDK_VERSION], s₃ v = s₁ v := by
    intro v hv
    have fresh : ∀ v ∈ [XCODE_PLATFORM, ACTIVE_SDK_VERSION], v ≠ MP_PLATFORM ∧ v ≠ ARCH_NAME ∧
        v ∉ (block ((Branch.xcode t).settings platformFirst)).touches := by
      cases t <;> decide
    obtain ⟨hp, ha, hpass⟩ := fresh v hv
    rw [(block _).frame L.pass v hpass, L.through v hp ha hpass]
  rw [kept _ (by simp), kept _ (by simp)]
  exact apple_assignments apple L.assigned

/-- The table of what a platform writes is what its script does. -/
theorem selected_writes (allowed : Allowed s)
    (h : (P.selected (P.branch m) platformFirst).run m s = .ok s') :
    ∀ p ∈ P.writes m s, s' p.1 = p.2 := by
  cases P with
  | linux =>
    obtain ⟨s₁, s₂, s₃, L⟩ := last_pass (b := .linux) h
    simp only [writes, List.forall_mem_cons, List.not_mem_nil, false_imp_iff, implies_true, and_true]
    rw [L.final _ (by decide)]
    exact block_literal L.pass rfl rfl
  | linaro =>
    obtain ⟨s₁, s₂, s₃, L⟩ := last_pass (b := .linaro) h
    simp only [writes, List.forall_mem_cons, List.not_mem_nil, false_imp_iff, implies_true, and_true]
    refine ⟨?_, ?_, ?_, ?_⟩ <;> rw [L.final _ (by decide)]
    · exact (linaro_writes L.pass).1
    · exact (linaro_writes L.pass).2
    · exact block_literal L.pass rfl rfl
    · exact block_literal L.pass rfl rfl
  | linaroSoftfp =>
    obtain ⟨s₁, s₂, s₃, L⟩ := last_pass (b := .linaroSoftfp) h
    simp only [writes, List.forall_mem_cons, List.not_mem_nil, false_imp_iff, implies_true, and_true]
    refine ⟨?_, ?_, ?_, ?_⟩ <;> rw [L.final _ (by decide)]
    · exact softfp_writes L.pass
    · exact block_literal L.pass rfl rfl
    · exact block_literal L.pass rfl rfl
    · exact block_literal L.pass rfl rfl
  | android =>
    obtain ⟨s₁, s₂, s₃, L⟩ := last_pass (b := .android) h
    obtain ⟨ndk, hndk, -⟩ := (ready_of_selected allowed h).2
    have target : s₃ MP_ANDROID_TARGET = some "arm" := by
      rw [(block _).frame L.pass MP_ANDROID_TARGET (by decide),
        L.through MP_ANDROID_TARGET (by decide) (by decide) (by decide)]
      exact block_literal L.assigned rfl rfl
    have hndk₃ : s₃ ANDROID_NDK_PATH = some ndk := by
      rw [(L.input (v := ANDROID_NDK_PATH) (by decide) (by decide) (by decide)).1, hndk]
    obtain ⟨prefix', package, ld, nm⟩ := android_writes L.pass target hndk₃
    simp only [writes, List.forall_mem_cons, List.not_mem_nil, false_imp_iff, implies_true, and_true,
      hndk, Option.map_some]
    refine ⟨?_, ?_, ?_, ?_, ?_, ?_, ?_⟩ <;> rw [L.final _ (by decide)]
    · exact block_literal L.pass rfl rfl
    · exact block_literal L.pass rfl rfl
    · exact prefix'
    · exact package
    · exact block_literal L.pass rfl rfl
    · exact ld
    · exact nm
  | _ =>
    obtain ⟨s₁, s₂, s₃, L⟩ :=
      last_pass (b := .xcode (m.isDir (m.xcode_select ++ "/Toolchains/"))) h
    obtain ⟨name, version⟩ := L.xcode rfl
    obtain ⟨xcode, visibility, ld, paths⟩ := xcode_writes L.pass name version
    simp only [writes]
    cases hdir : m.isDir (m.xcode_select ++ "/Toolchains/") <;> rw [hdir] at paths <;>
      simp only [Bool.false_eq_true, if_true, if_false, List.cons_append, List.nil_append,
        List.forall_mem_cons, List.not_mem_nil, false_imp_iff, implies_true, and_true] at paths ⊢
    · obtain ⟨toolchain, sdkPath⟩ := paths
      refine ⟨?_, ?_, ?_, ?_, ?_⟩ <;> rw [L.final _ (by decide)] <;> assumption
    · obtain ⟨toolchain, root, platformSdk, sdkPath⟩ := paths
      refine ⟨?_, ?_, ?_, ?_, ?_, ?_, ?_⟩ <;> rw [L.final _ (by decide)] <;> assumption

/-! ### What a platform lets through -/

/-- A command that writes neither of these keeps the answer prepared for cairo's configure. -/
def Quiet (c : Cmd) : Prop := LTO ∉ c.touches ∧ ax_cv_c_float_words_bigendian ∉ c.touches

theorem quiet_of_block {cs : List Cmd} (lto : LTO ∉ (block cs).touches)
    (answer : ax_cv_c_float_words_bigendian ∉ (block cs).touches) : ∀ c ∈ cs, Quiet c :=
  fun c hc => ⟨fun h => lto (mem_block_touches.mpr ⟨c, hc, h⟩),
    fun h => answer (mem_block_touches.mpr ⟨c, hc, h⟩)⟩

/-- Only the test of `LTO` writes it. -/
theorem settings_quiet : ∀ c ∈ b.settings platformFirst, c = useLto ∨ Quiet c := by
  have split : b.settings platformFirst = settingsHead.take 10 ++ useLto :: (settingsHead.drop 11 ++
      cleared :: b.commands ++ settingsPaths ++ b.zlib :: settingsCore ++ platformFirst ++
      settingsFlags ++ settingsVersions) := by
    simp [Branch.settings, Branch.before, settingsHead]
  intro c hc
  rw [split, List.mem_append, List.mem_cons] at hc
  rcases hc with hc | rfl | hc
  · exact .inr (quiet_of_block (by decide) (by decide) c hc)
  · exact .inl rfl
  · refine .inr (quiet_of_block ?_ ?_ c hc) <;> cases b with
      | xcode t => cases t <;> decide
      | _ => decide

theorem commands_quiet : ∀ c ∈ P.commandsWith (b.settings platformFirst), c = useLto ∨ Quiet c := by
  have variant : ∀ c ∈ variantAssignments P.archName P.mpPlatform ++ b.settings platformFirst,
      c = useLto ∨ Quiet c := by
    intro c hc
    rcases List.mem_append.mp hc with hc | hc
    · refine .inr (quiet_of_block ?_ ?_ c hc) <;>
        simp [mem_block_touches, variantAssignments, «export», exporting, assign]
    · exact settings_quiet c hc
  intro c hc
  simp only [commandsWith_eq, List.mem_append] at hc
  rcases hc with (hc | hc) | hc
  · exact .inr (quiet_of_block (by cases P <;> decide) (by cases P <;> decide) c hc)
  · exact settings_quiet c hc
  · cases P with
    | linux | android | macOSX | iPhoneOS | iPhoneSimulator => cases hc
    | linaro | linaroSoftfp =>
      have make : c = (.export MAKE ["make"] : Cmd) := by simpa [rest] using hc
      rw [make]
      exact .inr ⟨by decide, by decide⟩
    | iPhoneOS64 | iPhoneOSs | iPhoneSimulator64 => exact variant c hc

/-- Without `LTO` the answer prepared for cairo's configure is not given. -/
theorem selected_bigendian (lto : s LTO = none)
    (h : (P.selected b platformFirst).run m s = .ok s') :
    s' ax_cv_c_float_words_bigendian = s ax_cv_c_float_words_bigendian := by
  let J : Env Var → Prop := fun t => t LTO = none ∧
    t ax_cv_c_float_words_bigendian = s ax_cv_c_float_words_bigendian
  have step : ∀ c ∈ P.commandsWith (b.settings platformFirst), ∀ t t', c.run m t = .ok t' →
      J t → J t' := by
    intro c hc t t' ht hJ
    rcases commands_quiet c hc with rfl | ⟨hlto, hanswer⟩
    · rw [useLto, ite_run_of_eval (flag_eval LTO)] at ht
      have off : Off (t LTO) := by
        rw [hJ.1]
        decide
      simp only [off, decide_true, Bool.not_true, Bool.false_eq_true, if_false] at ht
      have kept : ∀ v, v ≠ USE_LTO → t' v = t v := fun v hv =>
        (Script.assign USE_LTO ["false"]).frame ht v (by simp [assign, hv])
      exact ⟨by rw [kept _ (by decide), hJ.1], by rw [kept _ (by decide), hJ.2]⟩
    · exact ⟨by rw [c.frame ht _ hlto, hJ.1], by rw [c.frame ht _ hanswer, hJ.2]⟩
  exact (block_preserves step h ⟨lto, rfl⟩).2

/-- What the table does not mention, a platform does not touch. -/
theorem watched_touches {v : Var} (hv : v ∈ watched) (hax : v ≠ ax_cv_c_float_words_bigendian)
    (absent : v ∉ P.written (m.isDir (m.xcode_select ++ "/Toolchains/"))) :
    v ∉ (P.selected (P.branch m) platformFirst).touches := by
  revert v
  cases P with
  | linux | linaro | linaroSoftfp | android =>
    simp only [branch, written]
    decide
  | _ =>
    simp only [branch]
    cases m.isDir (m.xcode_select ++ "/Toolchains/") <;> decide

/-- **The table is what a platform leaves behind.** -/
theorem source_leaves (usable : P.usableOn m) (lto : s LTO = none)
    (cxx : TakesPlatform s CXX (P.branch m).coreCXX) (cc : TakesPlatform s CC (P.branch m).coreCC)
    (h : P.source m s = .ok s') : ∀ v ∈ watched, s' v = P.leaves m s v := by
  intro v hv
  have allowed := allowed_of_source h
  rw [source_selected usable allowed cxx cc] at h
  rw [leaves]
  cases hfind : (P.writes m s).find? (·.1 = v) with
  | some p =>
    have hp := selected_writes allowed h p (List.mem_of_find?_eq_some hfind)
    have hpv : p.1 = v := by simpa using List.find?_some hfind
    rw [← hpv, hp]
  | none =>
    by_cases hax : v = ax_cv_c_float_words_bigendian
    · rw [hax]
      exact selected_bigendian lto h
    · refine (P.selected _ platformFirst).frame h v (watched_touches hv hax fun hmem => ?_)
      rw [← writes_keys m s] at hmem
      obtain ⟨p, hp, rfl⟩ := List.mem_map.mp hmem
      simpa using List.find?_eq_none.mp hfind p hp

/-! ### What fixes a run -/

/-- What the Xcode branch lets through, and `LTO`. -/
def xcodeInherits (t : Bool) : List Var :=
  [LTO, ax_cv_c_float_words_bigendian, ldconfig, PLATFORM_PREFIX, NDK_PACKAGE_DIR, NM] ++
    if t then [] else [SDK_ROOT, PLATFORM_SDK]

/-- On an Apple platform `settings.sh` reads these and the script's assignments. -/
def xcodeReads (t : Bool) : List Var := xcodeInputs ++ xcodeInherits t

theorem xcode_agree {t : Bool} {u u' : Env Var}
    (hs : (block ((Branch.xcode t).settings platformFirst)).run m s = .ok s')
    (hu : (block ((Branch.xcode t).settings platformFirst)).run m u = .ok u')
    (agree : AgreeOn (xcodeReads t) s u) : AgreeOn (settingsExports ++ xcodeReads t) s' u' := by
  refine (block _).final_eq hs hu _ (agree.mono ?_)
  cases t <;> decide +kernel

theorem apple_agree {t : Bool} {u u' : Env Var} (apple : P.isApple = true)
    (hs : (P.selected (.xcode t) platformFirst).run m s = .ok s')
    (hu : (P.selected (.xcode t) platformFirst).run m u = .ok u')
    (agree : AgreeOn (xcodeInherits t) s u) : AgreeOn settingsExports s' u' := by
  rw [selected, commandsWith_eq, List.append_assoc] at hs hu
  obtain ⟨s₁, hs₁, hs⟩ := block_append_ok hs
  obtain ⟨s₂, hs₂, hs⟩ := block_append_ok hs
  obtain ⟨u₁, hu₁, hu⟩ := block_append_ok hu
  obtain ⟨u₂, hu₂, hu⟩ := block_append_ok hu
  have agree₁ : AgreeOn (xcodeReads t) s₁ u₁ := by
    refine (block _).final_eq hs₁ hu₁ _ (agree.mono ?_)
    cases P <;> first | cases t <;> decide | cases apple
  have agree₂ := xcode_agree hs₂ hu₂ agree₁
  have twice : ∀ arch platform,
      (block (variantAssignments arch platform ++ (Branch.xcode t).settings platformFirst)).run m s₂
        = .ok s' →
      (block (variantAssignments arch platform ++ (Branch.xcode t).settings platformFirst)).run m u₂
        = .ok u' → AgreeOn settingsExports s' u' := by
    intro arch platform hs hu
    rw [block_append_of_run _ (variantAssignments_run _ _)] at hs hu
    refine (xcode_agree hs hu fun v hv => ?_).left
    by_cases hp : v = MP_PLATFORM
    · simp [hp]
    by_cases ha : v = ARCH_NAME
    · simp [ha]
    simpa [hp, ha] using agree₂.right v hv
  cases P with
  | macOSX | iPhoneOS | iPhoneSimulator =>
    cases hs
    cases hu
    exact agree₂.left
  | iPhoneOS64 | iPhoneOSs | iPhoneSimulator64 => exact twice _ _ hs hu
  | linux | linaro | linaroSoftfp | android => cases apple

/-- **A run is fixed by what the platform inherits**, the caller's inputs and, for the
archiver under `LTO`, the directory of the Linux branch. -/
theorem selected_agree {u u' : Env Var}
    (hs : (P.selected (P.branch m) platformFirst).run m s = .ok s')
    (hu : (P.selected (P.branch m) platformFirst).run m u = .ok u')
    (inputs : AgreeOn callerInputs s u) (inherited : AgreeOn (P.inherits m) s u)
    (dir : P = linux → s cwd = u cwd) : AgreeOn settingsExports s' u' := by
  have agree : AgreeOn (callerInputs ++ P.inherits m) s u := fun v hv =>
    (List.mem_append.mp hv).elim (inputs v) (inherited v)
  have apple : ∀ {t}, P.isApple = true → P.branch m = .xcode t →
      xcodeInherits t ⊆ callerInputs ++ P.inherits m → AgreeOn settingsExports s' u' :=
    fun apple hb sub => apple_agree apple (hb ▸ hs) (hb ▸ hu) (agree.mono sub)
  cases P with
  | linux =>
    apply (linux.selected .linux platformFirst).final_eq hs hu _
    have withDir : AgreeOn (cwd :: (callerInputs ++ linux.inherits m)) s u := fun v hv =>
      (List.mem_cons.mp hv).elim (fun h => h ▸ dir rfl) (agree v)
    exact withDir.mono (by simp only [inherits]; decide +kernel)
  | linaro =>
    refine (linaro.selected .linaro platformFirst).final_eq hs hu _ (agree.mono ?_)
    simp only [inherits]
    decide +kernel
  | linaroSoftfp =>
    refine (linaroSoftfp.selected .linaroSoftfp platformFirst).final_eq hs hu _ (agree.mono ?_)
    simp only [inherits]
    decide +kernel
  | android =>
    refine (android.selected .android platformFirst).final_eq hs hu _ (agree.mono ?_)
    simp only [inherits]
    decide +kernel
  | _ =>
    apply apple rfl rfl
    simp only [inherits, callerInputs]
    cases m.isDir (m.xcode_select ++ "/Toolchains/") <;> decide +kernel

end Passes

end Platform

end MapnikPackaging
