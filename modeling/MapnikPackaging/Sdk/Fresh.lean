/-
The package starts afresh.

What an earlier run has left in the directory of the package is cleared before it is filled, so the
base directories can be made again, and there is nothing else to be seen in the tarball.

* `rmAll_star` — what `rm -rf DIR/*` leaves.
* `starts_afresh` — the package when its base directories have been made.
-/

import MapnikPackaging.Sdk.Archives

namespace MapnikPackaging.Sdk

open Files Shell Var

variable {α : Type} {kit : Kit α} {v : Site} {p : Packaging} {cwd T : Path} {base : List Char}
  {t u : FileTree α} {s s' : Packing α} {n : Name}

/-! ### Clearing -/

theorem delete_node (t : FileTree α) (q r : Path) (n : Name) :
    (delete t (q ++ [n])).node r = if q ++ [n] <+: r then none else t.node r := by
  rw [delete, List.getLast?_concat, List.dropLast_concat]
  rfl

/-- Entries go one by one. -/
theorem foldlM_delete (names : List Name) (t : FileTree α) : ∃ u,
    (names.map fun n => T ++ [n]).foldlM (fun t q => some (delete t q)) t = some u ∧
    ∀ q, u.node q = if ∃ n ∈ names, T ++ [n] <+: q then none else t.node q := by
  induction names generalizing t with
  | nil => exact ⟨t, rfl, fun q => by simp⟩
  | cons n names ih =>
    obtain ⟨u, ran, left⟩ := ih (delete t (T ++ [n]))
    refine ⟨u, by simpa using ran, fun q => ?_⟩
    rw [left, delete_node]
    by_cases below : T ++ [n] <+: q
    · simp [below]
    · simp [below]

/-- **`rm -rf DIR/*`** never fails, and leaves nothing that can be seen. -/
theorem rmAll_star (bare : Bare base) (path : resolve cwd (base ++ ['/']) = T)
    (dir : s.tree.isDir T = true) :
    ∃ u, rmAll cwd (.split (base ++ '/' :: ['*'])) s = .ok { s with tree := u } ∧
      u.isDir T = true ∧ shown u T = [] := by
  obtain ⟨u, ran, left⟩ := foldlM_delete (T := T) (starred s.tree T) s.tree
  have words : ((Arg.split (base ++ '/' :: ['*'])).words s.tree cwd).map (resolve cwd)
      = (starred s.tree T).map fun n => T ++ [n] := resolve_star bare path
  have deleted : ((Arg.split (base ++ '/' :: ['*'])).words s.tree cwd).foldlM
      (fun t w => some (delete t (resolve cwd w))) s.tree = some u := by
    rw [← ran, ← words, List.foldlM_map]
  refine ⟨u, by simp only [rmAll, change, deleted], ?_, ?_⟩
  · have apart : ¬ ∃ n ∈ starred s.tree T, T ++ [n] <+: T := by
      rintro ⟨n, -, le⟩
      have short := le.length_le
      simp at short
    rw [FileTree.isDir, left, if_neg apart]
    exact dir
  · rw [List.eq_nil_iff_forall_not_mem]
    intro n listed
    obtain ⟨there, seen⟩ := mem_shown.mp listed
    rw [left] at there
    split at there
    · cases there
    · next kept =>
      have before : n ∈ shown s.tree T := mem_shown.mpr ⟨there, seen⟩
      have mem : n ∈ starred s.tree T := by
        rw [starred, if_neg (List.ne_nil_of_mem before)]
        exact before
      exact kept ⟨n, mem, List.prefix_refl _⟩

/-! ### The base directories -/

/-- The directory holds entries of these names, and no others that can be seen. -/
structure Holds (T : Path) (names : List Name) (t : FileTree α) : Prop where
  dir : t.isDir T = true
  entries : ∀ n, n ∈ shown t T ↔ n ∈ names

/-- A name that is not held is free. -/
theorem Holds.absent {names : List Name} (holds : Holds T names t) (seen : visible n = true)
    (new : n ∉ names) : t.node (T ++ [n]) = none := by
  rw [← Option.not_isSome_iff_eq_none]
  exact fun there => new ((holds.entries n).mp (mem_shown.mpr ⟨there, seen⟩))

/-- One directory more. -/
theorem mkdir_holds {a : Arg} {w : List Char} {names : List Name}
    (one : a.words s.tree cwd = [w]) (path : resolve cwd w = T ++ [n]) (proper : Proper n)
    (seen : visible n = true) (holds : Holds T names s.tree) (new : n ∉ names) :
    ∃ s', mkdir cwd a s = .ok s' ∧ Holds T (n :: names) s'.tree ∧
      s'.tree.node = Function.update s.tree.node (T ++ [n]) (some .dir) := by
  have absent := holds.absent seen new
  have free : s.tree.free (T ++ [n]) = true := by
    refine FileTree.free_append.mpr ⟨holds.dir, proper, ?_⟩
    rw [FileTree.isDir, absent]
    rfl
  obtain ⟨u, made⟩ : ∃ u, s.tree.mkdir (T ++ [n]) = some u :=
    ⟨_, dif_pos ⟨free, absent⟩⟩
  have node := FileTree.mkdir_node made
  refine ⟨{ s with tree := u }, ?_, ⟨FileTree.mkdir_isDir made holds.dir, fun k => ?_⟩, node⟩
  · simp only [mkdir, change, one, List.foldlM_cons, List.foldlM_nil, bind_pure, path, made]
  · rw [mem_shown, node, List.mem_cons, ← holds.entries k, mem_shown]
    by_cases same : k = n
    · subst same
      simp [seen]
    · rw [Function.update_of_ne (by simp [same])]
      simp [same]

/-- A directory in one of them. -/
theorem mkdirs_holds {a : Arg} {w : List Char} {names : List Name} {k : Name}
    (one : a.words s.tree cwd = [w]) (path : resolve cwd w = T ++ [n, k]) (proper : Proper k)
    (holds : Holds T names s.tree) (there : s.tree.isDir (T ++ [n]) = true)
    (absent : s.tree.node (T ++ [n, k]) = none) :
    ∃ s', mkdirs cwd a s = .ok s' ∧ Holds T names s'.tree := by
  have split : T ++ [n, k] = T ++ [n] ++ [k] := by simp
  have proper : ∀ i ∈ T ++ [n, k], Proper i := by
    rw [split, List.forall_mem_append, List.forall_mem_singleton]
    exact ⟨FileTree.proper_of_isDir there, proper⟩
  have clear : ∀ q, q <+: T ++ [n, k] → s.tree.isFile q = false := by
    intro q le
    rw [split] at le
    rcases List.prefix_concat_iff.mp le with rfl | le
    · rw [← split, FileTree.isFile, FileTree.content, absent]
      rfl
    · rw [Bool.eq_false_iff]
      exact fun file => FileTree.not_isDir_of_isFile file
        (FileTree.isDir_iff.mp (FileTree.isDir_of_below le there))
  obtain ⟨u, made⟩ := Option.isSome_iff_exists.mp (FileTree.mkdirs_isSome proper clear)
  have node : ∀ i, u.node (T ++ [i]) = s.tree.node (T ++ [i]) := by
    intro i
    rw [FileTree.mkdirs_node made, if_neg]
    rintro ⟨le, none⟩
    obtain rfl : i = n := by simpa using le
    rw [FileTree.isDir_iff.mp there] at none
    cases none
  refine ⟨{ s with tree := u }, ?_, FileTree.mkdirs_isDir made holds.dir, fun i => ?_⟩
  · simp only [mkdirs, change, one, List.foldlM_cons, List.foldlM_nil, bind_pure, path, made]
  · rw [mem_shown, node, ← mem_shown, holds.entries]

section Layout

variable (words : ∀ rest : String, Bare rest.toList → ∀ t : FileTree α,
    (Arg.split (sub (localTarget v p) rest)).words t cwd = [sub (localTarget v p) rest])
  (paths : ∀ rest : String, resolve cwd (sub (localTarget v p) rest)
    = T ++ components rest.toList)

include words paths

/-- **The base directories can be made** in a directory without entries. -/
theorem layout_holds (holds : Holds T [] s.tree) :
    ∃ s', run (layout v p cwd) s = .ok s' ∧
      Holds T (["share", "bin", "include", "lib"].map String.toList) s'.tree := by
  have fresh : s.tree.node (T ++ ["lib".toList]) = none := holds.absent (by decide) (by simp)
  have path : ∀ (rest : String) (n : Name), components rest.toList = [n] →
      resolve cwd (sub (localTarget v p) rest) = T ++ [n] := fun rest n read => by
    rw [paths, read]
  obtain ⟨s₁, lib, h₁, n₁⟩ := mkdir_holds (words "lib" (by decide) _)
    (path "lib" "lib".toList (by decide)) (by decide) (by decide) holds (by simp)
  obtain ⟨s₂, headers, h₂, n₂⟩ := mkdir_holds (words "include" (by decide) _)
    (path "include" "include".toList (by decide)) (by decide) (by decide) h₁ (by decide)
  obtain ⟨s₃, bin, h₃, n₃⟩ := mkdir_holds (words "bin" (by decide) _)
    (path "bin" "bin".toList (by decide)) (by decide) (by decide) h₂ (by decide)
  have there : s₃.tree.isDir (T ++ ["lib".toList]) = true := by
    simp [FileTree.isDir_iff, n₃, n₂, n₁]
  have empty : s₃.tree.node (T ++ ["lib".toList, "pkgconfig".toList]) = none := by
    have below : s.tree.node (T ++ ["lib".toList, "pkgconfig".toList]) = none := by
      rw [← Option.not_isSome_iff_eq_none]
      intro found
      have above := FileTree.isDir_of_append (p := T ++ ["lib".toList]) (t := s.tree)
        (List.cons_ne_nil "pkgconfig".toList []) (by simpa using found)
      rw [fresh] at above
      cases above
    rw [n₃, Function.update_of_ne (by simp), n₂, Function.update_of_ne (by simp), n₁,
      Function.update_of_ne (by simp), below]
  obtain ⟨s₄, pkgconfig, h₄⟩ := mkdirs_holds (words "lib/pkgconfig" (by decide) _)
    (by rw [paths]; rfl) (by decide) h₃ there empty
  obtain ⟨s₅, share, h₅, -⟩ := mkdir_holds (words "share/" (by decide) _)
    (path "share/" "share".toList (by decide)) (by decide) (by decide) h₄ (by decide)
  refine ⟨s₅, ?_, h₅⟩
  simp only [layout, run, List.foldlM_cons, List.foldlM_nil, lib, headers, bin, pkgconfig, share,
    bind, Except.bind, pure, Except.pure]

end Layout

/-! ### A run on a platform -/

section Platforms

variable {m : Machine} {P : Platform} {places : List Path}

/-- The directory of the package. -/
def packageDir (m : Machine) (p : Packaging) : Path := distDir m ++ components p.packageName.toList

theorem resolve_own (absolute : m.rootdir.toList.head? = some '/') :
    resolve cwd (localTarget (P.site m) p).toList = packageDir m p := by
  rw [localTarget_text, resolve_dist_slash absolute, packageDir]

/-- After the clearing there is nothing to be seen. -/
theorem Orderly.clear_holds (orderly : Orderly kit m p places) (bare : Bare p.packageName.toList)
    (ran : run (clear kit (P.site m) p (distDir m)) s = .ok s') :
    Holds (packageDir m p) [] s'.tree := by
  have own : resolve (distDir m) (localTarget (P.site m) p).toList = packageDir m p :=
    resolve_own orderly.absolute
  have star : sub (localTarget (P.site m) p) "*"
      = (localTarget (P.site m) p).toList ++ '/' :: ['*'] := rfl
  rw [clear, run_cons, bind_eq_ok] at ran
  obtain ⟨s₁, made, ran⟩ := ran
  rw [run_cons, bind_eq_ok] at ran
  obtain ⟨s₂, staged, ran⟩ := ran
  rw [run_cons, bind_eq_ok] at ran
  obtain ⟨s₃, removed, done⟩ := ran
  obtain rfl : s₃ = s' := Except.ok.inj done
  -- the directory is made, and stays while `mktemp` makes its own
  have dir₁ : s₁.tree.isDir (packageDir m p) = true := by
    obtain ⟨u, there, rfl⟩ := change_ok made
    simp only [Arg.words, List.foldlM_cons, List.foldlM_nil, bind_pure, own] at there
    exact FileTree.isDir_of_mkdirs there
  have dir₂ : s₂.tree.isDir (packageDir m p) = true := by
    obtain ⟨u, there, rfl⟩ := change_ok staged
    exact FileTree.mkdir_isDir there dir₁
  obtain ⟨u, ran, dir, none⟩ := rmAll_star (orderly.placed (P := P) bare).bare
    ((resolve_end _ (by simp [localTarget])).trans own) dir₂
  rw [star, ran] at removed
  obtain rfl := Except.ok.inj removed
  exact ⟨dir, fun n => by rw [none]⟩

/-- **The clearing goes through** where no file stands in the way. -/
theorem Orderly.clears (orderly : Orderly kit m p places) (bare : Bare p.packageName.toList)
    (dotless : Dotless p.packageName.toList) (dist : s.tree.isDir (distDir m) = true)
    (way : ∀ q, q <+: packageDir m p → s.tree.isFile q = false)
    (staged : ∀ u, s.tree.mkdirs (packageDir m p) = some u →
      (u.mkdir (resolve (distDir m) kit.staging)).isSome = true) :
    ∃ s', run (clear kit (P.site m) p (distDir m)) s = .ok s' := by
  have own : resolve (distDir m) (localTarget (P.site m) p).toList = packageDir m p :=
    resolve_own orderly.absolute
  have names : ∀ n ∈ packageDir m p, Proper n := by
    rw [packageDir, List.forall_mem_append]
    exact ⟨FileTree.proper_of_isDir dist, dotless⟩
  obtain ⟨t₁, there⟩ := Option.isSome_iff_exists.mp (FileTree.mkdirs_isSome names way)
  obtain ⟨t₂, temporary⟩ := Option.isSome_iff_exists.mp (staged t₁ there)
  have dir := FileTree.mkdir_isDir temporary (FileTree.isDir_of_mkdirs there)
  obtain ⟨u, removed, -, -⟩ := rmAll_star (s := { s with tree := t₂ })
    (orderly.placed (P := P) bare).bare ((resolve_end _ (by simp [localTarget])).trans own) dir
  have star : sub (localTarget (P.site m) p) "*"
      = (localTarget (P.site m) p).toList ++ '/' :: ['*'] := rfl
  have made : mkdirs (distDir m) (.quoted (localTarget (P.site m) p).toList) s
      = .ok { s with tree := t₁ } := by
    simp only [mkdirs, change, Arg.words, List.foldlM_cons, List.foldlM_nil, bind_pure, own, there]
  refine ⟨{ s with tree := u }, ?_⟩
  rw [clear, run_cons, made]
  show run [_, _] { s with tree := t₁ } = _
  rw [run_cons, change, temporary]
  show run [_] { s with tree := t₂ } = _
  rw [run_cons, star, removed]
  rfl

/-- **The package starts afresh**: whatever there is in its directory, it can be cleared, and when
it has been, its base directories can be made and are all that can be seen. -/
theorem starts_afresh {e₀ e : Env Var} (usable : P.usableOn m) (sourced : P.source m e₀ = .ok e)
    (hv : site e = some v) (orderly : Orderly kit m p places) (bare : Bare p.packageName.toList)
    (dotless : Dotless p.packageName.toList) (dist : s.tree.isDir (distDir m) = true)
    (way : ∀ q, q <+: packageDir m p → s.tree.isFile q = false)
    (staged : ∀ u, s.tree.mkdirs (packageDir m p) = some u →
      (u.mkdir (resolve (distDir m) kit.staging)).isSome = true) :
    ∃ s' s'', run (clear kit v p (distDir m)) s = .ok s' ∧
      run (layout v p (distDir m)) s' = .ok s'' ∧
      ∀ n, n ∈ shown s''.tree (packageDir m p) ↔
        n ∈ ["share", "bin", "include", "lib"].map String.toList := by
  obtain rfl : P.site m = v :=
    Option.some.inj ((site_of_source usable sourced).symm.trans hv)
  obtain ⟨s', cleared⟩ := orderly.clears (P := P) bare dotless dist way staged
  obtain ⟨s'', made, holds⟩ := layout_holds
    (fun rest plain t => orderly.package_words (P := P) bare plain t)
    (fun rest => resolve_package orderly.absolute rest) (orderly.clear_holds bare cleared)
  exact ⟨s', s'', cleared, made, holds.entries⟩

theorem packageTree_dirs : packageTree.isDir (distDir Universal.buildBox) = true ∧
    packageTree.isDir (packageDir Universal.buildBox deviceRun) = true ∧
    (packageTree.mkdirs (packageDir Universal.buildBox deviceRun)).all (fun u =>
      (u.mkdir (resolve (distDir Universal.buildBox) packageKit.staging)).isSome) = true := by
  decide +kernel

/-- Where an earlier run has left a `lib` and a `bin`. -/
theorem starts_afresh_iPhoneOS : ∃ s' s'',
    run (clear packageKit (Platform.site Universal.buildBox .iPhoneOS) deviceRun
      (distDir Universal.buildBox)) ⟨packageTree, []⟩ = .ok s' ∧
    run (layout (Platform.site Universal.buildBox .iPhoneOS) deviceRun
      (distDir Universal.buildBox)) s' = .ok s'' ∧
    ∀ n, n ∈ shown s''.tree (packageDir Universal.buildBox deviceRun) ↔
      n ∈ ["share", "bin", "include", "lib"].map String.toList := by
  have usable : Platform.usableOn Universal.buildBox .iPhoneOS := rfl
  obtain ⟨e, sourced⟩ := Universal.buildShell_completes (P := .iPhoneOS) rfl
  obtain ⟨dist, package, staged⟩ := packageTree_dirs
  apply starts_afresh usable sourced (site_of_source usable sourced) packageKit_orderly
    (by decide) (by decide) dist
  · intro q le
    rw [Bool.eq_false_iff]
    exact fun file => FileTree.not_isDir_of_isFile file
      (FileTree.isDir_iff.mp (FileTree.isDir_of_below le package))
  · intro u made
    rw [made, Option.all_some] at staged
    exact staged

end Platforms

end MapnikPackaging.Sdk
