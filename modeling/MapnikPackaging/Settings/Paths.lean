/-
Where a sourced platform builds.

`settings.sh` joins the names of the install prefixes from the directory of the checkout, the
standard library and the two names of the platform. `Platform.source_paths` gives them as they
stand after a platform script has run to its end, also after one that sources its sibling first.
-/

import MapnikPackaging.Settings.Values

namespace MapnikPackaging

open Shell Script Var

/-- `STDLIB` -/
def Branch.stdlib : Branch → String
  | linux | linaro | linaroSoftfp => "libstdcpp"
  | android | xcode _ => "libcpp"

namespace Platform

/-- `STDLIB` -/
def stdlib : Platform → String
  | linux | linaro | linaroSoftfp => "libstdcpp"
  | _ => "libcpp"

theorem branch_stdlib (m : Machine) (P : Platform) : (P.branch m).stdlib = P.stdlib := by
  cases P <;> rfl

/-- `BUILDDIR` -/
def builddir (P : Platform) : String := "build-cpp11-" ++ P.stdlib

/-- `${ARCH_NAME}-${platform_lowercase}` -/
def slice (P : Platform) : String := P.archName ++ "-" ++ toLowercase P.mpPlatform

/-- No two platforms build under one name. -/
theorem slice_injective {P Q : Platform} (same : P.slice = Q.slice) : P = Q := by
  have apart : ∀ P ∈ all, ∀ Q ∈ all, P.slice = Q.slice → P = Q := by decide
  exact apart P (mem_all P) Q (mem_all Q) same

/-- The paths a pass of `settings.sh` derives. -/
structure Derived (m : Machine) (stdlib platform arch : String) (s : Env Var) : Prop where
  uname : s UNAME = some m.uname_s
  rootdir : s ROOTDIR = some m.rootdir
  install : s MAPNIK_INSTALL = some "/usr/local"
  dist : s MAPNIK_DIST = some (m.rootdir ++ "/out/dist")
  build_root : s BUILD_ROOT = some (m.rootdir ++ "/out/build-cpp11-" ++ stdlib)
  universal : s BUILD_UNIVERSAL = some (m.rootdir ++ "/out/build-cpp11-" ++ stdlib ++ "-universal")
  build : s BUILD = some (m.rootdir ++ "/out/build-cpp11-" ++ stdlib ++ "-" ++ arch ++ "-" ++
    toLowercase platform)
  bin_source : s MAPNIK_BIN_SOURCE = some (m.rootdir ++ "/out/build-cpp11-" ++ stdlib ++ "-" ++
    arch ++ "-" ++ toLowercase platform ++ "-mapnik/usr/local")

section Paths

variable {m : Machine} {P : Platform} {s s' : Env Var}

/-- What `settings.sh` does before and after it joins the paths. -/
theorem settings_split {b : Branch} (h : (block (b.settings callerFirst)).run m s = .ok s') :
    ∃ s₁ s₂, (block settingsPaths).run m s₁ = .ok s₂ ∧
      ∀ v ∈ [UNAME, ROOTDIR, MAPNIK_INSTALL, MAPNIK_DIST, CXX_STANDARD, STDLIB, BUILDDIR,
        BUILD_UNIVERSAL, BUILD_ROOT, BUILD, MAPNIK_DESTDIR, MAPNIK_BIN_SOURCE, platform_lowercase,
        ARCH_NAME], s' v = s₂ v := by
  have split : b.settings callerFirst = (settingsHead ++ cleared :: b.commands) ++ (settingsPaths ++
      (b.zlib :: settingsCore ++ callerFirst ++ settingsFlags ++ settingsVersions)) := by
    simp [Branch.settings, Branch.before]
  rw [split] at h
  obtain ⟨s₁, -, h⟩ := block_append_ok h
  obtain ⟨s₂, paths, rest⟩ := block_append_ok h
  refine ⟨s₁, s₂, paths, fun v hv => (block _).frame rest v ?_⟩
  revert v
  cases b with
  | xcode t => cases t <;> decide
  | _ => decide

theorem settings_derives {b : Branch} {platform arch : String}
    (h : (block (b.settings callerFirst)).run m s = .ok s')
    (hp : s' MP_PLATFORM = some platform) (ha : s' ARCH_NAME = some arch) :
    Derived m b.stdlib platform arch s' := by
  have uname : s' UNAME = some m.uname_s := by
    cases b with
    | xcode t => cases t <;> exact block_ask h rfl rfl
    | _ => exact block_ask h rfl rfl
  have rootdir : s' ROOTDIR = some m.rootdir := by
    cases b with
    | xcode t => cases t <;> exact block_ask h rfl rfl
    | _ => exact block_ask h rfl rfl
  have install : s' MAPNIK_INSTALL = some "/usr/local" := by
    cases b with
    | xcode t => cases t <;> exact block_literal h rfl rfl
    | _ => exact block_literal h rfl rfl
  have standard : s' CXX_STANDARD = some "cpp11" := by
    cases b with
    | xcode t => cases t <;> exact block_literal h rfl rfl
    | _ => exact block_literal h rfl rfl
  have stdlib : s' STDLIB = some b.stdlib := by
    cases b with
    | xcode t => cases t <;> exact block_literal h rfl rfl
    | _ => exact block_literal h rfl rfl
  have lowercase : s' platform_lowercase = some (toLowercase platform) := by
    have expand : Word.eval m s' [.out (fun _ => toLowercase) MP_PLATFORM]
        = .ok (toLowercase platform) := by
      simp [Word.eval, Seg.eval, fetch, hp, Except.map, bind, Except.bind, pure, Except.pure]
    cases b with
    | xcode t => cases t <;> exact block_value_of_eval h rfl rfl (by decide) (by decide) expand
    | _ => exact block_value_of_eval h rfl rfl (by decide) (by decide) expand
  have dist : s' MAPNIK_DIST = some (m.rootdir ++ "/out/dist") := by
    have expand : Word.eval m s' [ROOTDIR, "/out/dist"] = .ok (m.rootdir ++ "/out/dist") := by
      simp [Word.eval_val rootdir, Except.map]
    cases b with
    | xcode t => cases t <;> exact block_value_of_eval h rfl rfl (by decide) (by decide) expand
    | _ => exact block_value_of_eval h rfl rfl (by decide) (by decide) expand
  obtain ⟨s₁, s₂, paths, kept⟩ := settings_split h
  simp only [List.forall_mem_cons] at kept
  obtain ⟨uname', rootdir', install', dist', standard', stdlib', builddir', universal', root',
    build', destdir', source', lowercase', arch', -⟩ := kept
  rw [rootdir'] at rootdir
  rw [install'] at install
  rw [standard'] at standard
  rw [stdlib'] at stdlib
  rw [lowercase'] at lowercase
  rw [arch'] at ha
  -- each path is joined from what stands before it in the file
  have builddir : s₂ BUILDDIR = some ("build-cpp11-" ++ b.stdlib) :=
    block_value_of_eval paths rfl rfl (by decide) (by decide)
      (w := ["build-", CXX_STANDARD, "-", STDLIB])
      (by simp [Word.eval_val standard, Word.eval_val stdlib, Except.map, ← String.append_assoc])
  have universal : s₂ BUILD_UNIVERSAL =
      some (m.rootdir ++ "/out/build-cpp11-" ++ b.stdlib ++ "-universal") :=
    block_value_of_eval paths rfl rfl (by decide) (by decide)
      (w := [ROOTDIR, "/out/", BUILDDIR, "-universal"])
      (by simp [Word.eval_val rootdir, Word.eval_val builddir, Except.map, ← String.toList_inj])
  have root : s₂ BUILD_ROOT = some (m.rootdir ++ "/out/build-cpp11-" ++ b.stdlib) :=
    block_value_of_eval paths rfl rfl (by decide) (by decide) (w := [ROOTDIR, "/out/", BUILDDIR])
      (by simp [Word.eval_val rootdir, Word.eval_val builddir, Except.map, ← String.toList_inj])
  have build : s₂ BUILD = some (m.rootdir ++ "/out/build-cpp11-" ++ b.stdlib ++ "-" ++ arch ++
      "-" ++ toLowercase platform) :=
    block_value_of_eval paths rfl rfl (by decide) (by decide)
      (w := [BUILD_ROOT, "-", ARCH_NAME, "-", platform_lowercase])
      (by simp [Word.eval_val root, Word.eval_val ha, Word.eval_val lowercase, Except.map,
        ← String.toList_inj])
  have destdir : s₂ MAPNIK_DESTDIR = some (m.rootdir ++ "/out/build-cpp11-" ++ b.stdlib ++ "-" ++
      arch ++ "-" ++ toLowercase platform ++ "-mapnik") :=
    block_value_of_eval paths rfl rfl (by decide) (by decide) (w := [BUILD, "-mapnik"])
      (by simp [Word.eval_val build, Except.map])
  have source : s₂ MAPNIK_BIN_SOURCE = some (m.rootdir ++ "/out/build-cpp11-" ++ b.stdlib ++ "-" ++
      arch ++ "-" ++ toLowercase platform ++ "-mapnik/usr/local") :=
    block_value_of_eval (w := [MAPNIK_DESTDIR, MAPNIK_INSTALL]) paths rfl rfl (by decide)
      (by decide)
      (by simp [Word.eval_val destdir, Word.eval_val install, Except.map, ← String.toList_inj])
  exact ⟨uname, by rw [rootdir', rootdir], by rw [install', install], dist, by rw [root', root],
    by rw [universal', universal], by rw [build', build], by rw [source', source]⟩

/-- **The paths a platform leaves**, from its own names. -/
theorem source_paths (usable : P.usableOn m) (h : P.source m s = .ok s') :
    Derived m P.stdlib P.mpPlatform P.archName s' := by
  obtain ⟨s₁, s₂, s₃, L⟩ := source_last_pass usable h
  have platform : s₃ MP_PLATFORM = some P.mpPlatform := by
    rw [(block _).frame L.pass _ (settings_names _ (by decide)), L.platform]
  have arch : s₃ ARCH_NAME = some P.archName := by
    rw [(block _).frame L.pass _ (settings_names _ (by decide)), L.arch]
  have derived := settings_derives L.pass platform arch
  rw [branch_stdlib] at derived
  have same : ∀ v, v ≠ MAKE → s' v = s₃ v := L.final
  exact ⟨by rw [same _ (by decide), derived.uname], by rw [same _ (by decide), derived.rootdir],
    by rw [same _ (by decide), derived.install], by rw [same _ (by decide), derived.dist],
    by rw [same _ (by decide), derived.build_root], by rw [same _ (by decide), derived.universal],
    by rw [same _ (by decide), derived.build], by rw [same _ (by decide), derived.bin_source]⟩

end Paths

end Platform

end MapnikPackaging
