/-
The libraries of the package.

`package_mobile_sdk.sh` copies `${BUILD_UNIVERSAL}/*` without `-r`, but `make_universal.sh` puts the
libraries it joins into `lib` there. A directory makes `cp` fail, and the script stops under
`set -e` before there is a tarball.

* `Orderly.copyLibs_iff` — when the step goes through.
* `never_published` — after a merge of prefixes it never does.
-/

import MapnikPackaging.Sdk.Frame
import MapnikPackaging.Universal.Contents

namespace MapnikPackaging.Sdk

open Files Shell Var

variable {α : Type} {kit : Kit α} {v : Site} {p : Packaging} {cwd d lib : Path}
  {t : FileTree α} {s : Packing α}

/-! ### The step -/

/-- **When the copy of the universal libraries goes through**: there is something to be copied, none
of it is a directory, and nothing has the name of a directory in the package. -/
theorem copyLibs_universal_iff (bare : Bare v.build_universal.toList)
    (target : ∀ t : FileTree α, (Arg.split (sub (localTarget v p) "lib/")).words t cwd =
      [sub (localTarget v p) "lib/"])
    (path : resolve cwd (v.build_universal.toList ++ ['/']) = d)
    (lands : resolve cwd (sub (localTarget v p) "lib/") = lib)
    (universal : s.tree.isDir (resolve cwd v.build_universal.toList) = true)
    (dir : s.tree.isDir lib = true) (off : ∀ q, ¬ lib <+: d ++ q) :
    (∃ s', copyLibs kit v p cwd s = .ok s') ↔ shown s.tree d ≠ [] ∧
      ∀ n ∈ shown s.tree d, s.tree.isFile (d ++ [n]) = true ∧
        s.tree.isDir (lib ++ [n]) = false := by
  have outside : ¬ lib <+: d := by simpa using off []
  have apart : ∀ n : Name, lib ≠ d ++ [n] := fun n same => off [n] (same ▸ List.prefix_refl _)
  have words : [Arg.split (sub v.build_universal "*"),
      Arg.split (sub (localTarget v p) "lib/")].flatMap (Arg.words s.tree cwd) =
        (Arg.split (sub v.build_universal "*")).words s.tree cwd ++
          [sub (localTarget v p) "lib/"] := by
    rw [List.flatMap_cons, List.flatMap_singleton, target]
  have operands : ((Arg.split (sub v.build_universal "*")).words s.tree cwd).map (resolve cwd)
      = (starred s.tree d).map fun n => d ++ [n] := resolve_star bare path
  have some : (starred s.tree d).map (fun n => d ++ [n]) ≠ [] := by
    simpa using starred_ne_nil
  have copies : (∃ s', copyLibs kit v p cwd s = .ok s') ↔
      (s.tree.copyAll false lib ((starred s.tree d).map fun n => d ++ [n])).2 = true := by
    unfold copyLibs
    rw [if_pos universal]
    simp only [cp, List.singleton_append, words, List.getLast?_concat, List.dropLast_concat,
      operands, lands, dir]
    rw [if_neg (by simp [some])]
    split
    · next succeeds => exact iff_of_true ⟨_, rfl⟩ succeeds
    · next fails => exact iff_of_false (by simp) fails
  rw [copies, FileTree.copyAll_succeeds_iff dir outside fun n _ => apart n]
  apply starred_iff
  rintro n ⟨file, -⟩
  obtain ⟨a, ha⟩ := FileTree.isFile_iff.mp file
  rw [ha]
  rfl

/-! ### A run on a platform -/

section Platforms

variable {m : Machine} {P : Platform} {places : List Path} {start : Path}

/-- **When the libraries of a universal prefix are packaged.** -/
theorem Orderly.copyLibs_iff (orderly : Orderly kit m p places) (bare : Bare p.packageName.toList)
    (universal : s.tree.isDir (Universal.at_ m P start "universal" []) = true)
    (dir : s.tree.isDir (libDir m p) = true) :
    (∃ s', copyLibs kit (P.site m) p (distDir m) s = .ok s') ↔
      shown s.tree (Universal.at_ m P start "universal" []) ≠ [] ∧
      ∀ n ∈ shown s.tree (Universal.at_ m P start "universal" []),
        s.tree.isFile (Universal.at_ m P start "universal" [n]) = true ∧
        s.tree.isDir (libDir m p ++ [n]) = false := by
  have root : resolve (distDir m) (P.site m).build_universal.toList
      = Universal.at_ m P start "universal" [] := resolve_universal orderly.absolute
  have named : (P.site m).build_universal.toList
      = Universal.below m (Universal.entry P "universal") := Universal.build_universal_eq
  have nonempty : (P.site m).build_universal.toList ≠ [] := by simp [named, Universal.below]
  have off : ∀ q, ¬ libDir m p <+: Universal.at_ m P start "universal" [] ++ q := by
    intro q
    rw [← Universal.at_eq_append, libDir, List.append_assoc]
    exact dist_apart orderly.absolute _ _ _
  have copied : (∃ s', copyLibs kit (P.site m) p (distDir m) s = .ok s') ↔ _ :=
    copyLibs_universal_iff
      (by rw [named]; exact Universal.bare_below orderly.bare (Universal.bare_entry (by decide)))
      (orderly.package_words bare (by decide)) ((resolve_end _ nonempty).trans root)
      (resolve_lib_slash orderly.absolute) (by rw [root, universal]) dir off
  simpa only [← Universal.at_eq_append] using copied

/-- The package is never filled where the universal prefix holds a directory. -/
theorem Orderly.fill_stops (orderly : Orderly kit m p places) (bare : Bare p.packageName.toList)
    (apart : ∀ r ∈ resolve (distDir m) kit.staging :: places,
      ∀ q, ¬ r <+: Universal.at_ m P start "universal" q) {n : Name}
    (universal : s.tree.isDir (Universal.at_ m P start "universal" []) = true)
    (seen : visible n = true)
    (there : s.tree.isDir (Universal.at_ m P start "universal" [n]) = true)
    (dir : s.tree.isDir (distDir m) = true) (none : s.uploads = []) :
    ∃ s', fill kit (P.site m) p (distDir m) s = .error s' ∧ s'.uploads = [] := by
  have off : ∀ r ∈ written kit m p places, ∀ q, ¬ r <+: Universal.at_ m P start "universal" q := by
    intro r hr
    rcases List.mem_cons.mp hr with rfl | hr
    · exact dist_apart orderly.absolute _ _
    · exact apart r hr
  have placed := orderly.placed (P := P) bare
  have stays : distDir m ∈ [distDir m] := List.mem_singleton_self _
  have filled := (orderly.keeps_prepare (P := P) bare).ends s (by simpa using dir)
  unfold fill
  cases ran : prepare kit (P.site m) p (distDir m) s with
  | error s₁ =>
    rw [ran] at filled
    exact ⟨s₁, rfl, filled.uploads.trans none⟩
  | ok s₁ =>
    rw [ran] at filled
    have same : ∀ q, s₁.tree.isDir (Universal.at_ m P start "universal" q)
        = s.tree.isDir (Universal.at_ m P start "universal" q) := fun q =>
      filled.outside.isDir fun r hr => off r hr q
    have copied := (keeps_copyLibs placed stays).ends s₁ filled.dirs
    have stuck : ¬ ∃ s', copyLibs kit (P.site m) p (distDir m) s₁ = .ok s' := by
      rw [orderly.copyLibs_iff bare ((same _).trans universal) (orderly.isDir_lib bare dir ran)]
      rintro ⟨-, files⟩
      have folder : s₁.tree.isDir (Universal.at_ m P start "universal" [n]) = true :=
        (same _).trans there
      have listed : n ∈ shown s₁.tree (Universal.at_ m P start "universal" []) := by
        refine mem_shown.mpr ⟨?_, seen⟩
        rw [← Universal.at_eq_append, FileTree.isDir_iff.mp folder]
        rfl
      exact FileTree.not_isDir_of_isFile (files n listed).1 (FileTree.isDir_iff.mp folder)
    cases libs : copyLibs kit (P.site m) p (distDir m) s₁ with
    | ok s₂ => exact absurd ⟨s₂, libs⟩ stuck
    | error s₂ =>
      rw [libs] at copied
      refine ⟨s₂, ?_, copied.uploads.trans (filled.uploads.trans none)⟩
      simp only [libs, bind, Except.bind]

/-- **A merge is never published**: once the script that joins the prefixes has run over a prefix
with a visible directory, such as `lib`, the one that packages them fails, and uploads nothing. -/
theorem never_published {e₀ e : Env Var} {w : Exported} {arch : α → String}
    {tools : Universal.Tools α} {done : Progress α} {a : String} {n : Name}
    (usable : P.usableOn m) (sourced : P.source m e₀ = .ok e) (hw : exported e = some w)
    (hv : site e = some v) (orderly : Orderly kit m p places)
    (apart : ∀ r ∈ resolve (distDir m) kit.staging :: places,
      ∀ q, ¬ r <+: Universal.at_ m P start "universal" q)
    (darwin : m.uname_s = "Darwin") (tree : Universal.OutTree m P start arch t)
    (ran : Universal.makeUniversal tools start w ⟨t, []⟩ = .ok done)
    (listed : a ∈ archs) (seen : visible n = true)
    (there : t.isDir (Universal.at_ m P start a [n]) = true) :
    ∃ s', package kit v p start ⟨done.tree, []⟩ = .error s' ∧ s'.uploads = [] := by
  obtain rfl : P.exported m = w :=
    Option.some.inj ((exported_of_source usable sourced).symm.trans hw)
  obtain rfl : P.site m = v :=
    Option.some.inj ((site_of_source usable sourced).symm.trans hv)
  have made := (Universal.makeUniversal_contents tree orderly.bare darwin).of_ok ran
  have merged : done.tree.isDir (Universal.at_ m P start "universal" [n]) = true := by
    rw [made.dirs [n] (List.cons_ne_nil n []), Bool.or_eq_true, List.any_eq_true]
    exact .inr ⟨a, listed, there⟩
  have out : done.tree.isDir (Universal.outDir m start) = true := by
    rw [made.elsewhere.isDir Universal.outDir_outside, tree.out]
  have first := (keeps_dist (α := α) orderly).ends ⟨done.tree, []⟩ (by simpa using out)
  rw [package_eq orderly]
  cases ready : change (fun t => t.mkdirs (distDir m)) ⟨done.tree, []⟩ with
  | error s₁ =>
    rw [ready] at first
    exact ⟨s₁, rfl, first.uploads⟩
  | ok s₁ =>
    rw [ready] at first
    have same : ∀ q, s₁.tree.isDir (Universal.at_ m P start "universal" q)
        = done.tree.isDir (Universal.at_ m P start "universal" q) := by
      intro q
      apply first.outside.isDir
      intro r hr
      rw [List.mem_singleton.mp hr]
      simpa using dist_apart orderly.absolute _ [] q
    show ∃ s', described kit (P.site m) p (distDir m) s₁ = .error s' ∧ s'.uploads = []
    unfold described
    cases asked : ask kit (distDir m) (P.site m).mapnik_config.toList "--git-describe" s₁.tree with
    | none => exact ⟨s₁, rfl, first.uploads⟩
    | some describe =>
      obtain ⟨file, -, printed⟩ := Option.bind_eq_some_iff.mp asked
      exact (orderly.described describe).fill_stops (orderly.named file describe printed) apart
        ((same _).trans made.root) seen ((same _).trans merged) (isDir_of_change ready)
        first.uploads

/-- A merge of the prefix of iPhoneOS alone. -/
theorem never_published_iPhoneOS : ∃ w v done s',
    Universal.makeUniversal Universal.sliceTools [] w ⟨Universal.built .iPhoneOS, []⟩ = .ok done ∧
    package packageKit v deviceRun [] ⟨done.tree, []⟩ = .error s' ∧ s'.uploads = [] := by
  have usable := Universal.iPhoneOS_usable
  obtain ⟨e, w, done, sourced, hw, ran⟩ := Universal.built_runs
  have apart : ∀ r ∈ [resolve (distDir Universal.buildBox) packageKit.staging],
      ∀ q, ¬ r <+: Universal.at_ Universal.buildBox .iPhoneOS [] "universal" q := by
    intro r hr q
    have tmp : resolve (distDir Universal.buildBox) packageKit.staging =
        "tmp".toList :: ["stage-mapnik-XXX.9d1a".toList] := by decide
    rw [List.mem_singleton.mp hr, tmp, Universal.at_, Universal.outDir_buildBox,
      Universal.boxOut, List.cons_append, List.cons_prefix_cons]
    exact fun h => absurd h.1 (by decide)
  obtain ⟨s', stopped, none⟩ := never_published usable sourced hw (site_of_source usable sourced)
    packageKit_orderly apart rfl (Universal.built_outTree .iPhoneOS) ran
    (show Platform.slice .iPhoneOS ∈ archs by decide) (show visible "lib".toList = true by decide)
    (by decide)
  exact ⟨w, _, done, s', ran, stopped, none⟩

end Platforms

end MapnikPackaging.Sdk
