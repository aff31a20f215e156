/-
The archives of the package.

Where there is no universal prefix, `package_mobile_sdk.sh` copies the static dependencies one by
one. `copyDepLib` does it on the tree of files, `copyDep` between two folders; the loop over the
first is the loop over the second, seen in the tree.

* `deps_loop` — the loop never fails, and what it does to the tree.
* `deps_packaged` — what a completed copy has put into the package.
-/

import MapnikPackaging.Sdk.Frame

namespace MapnikPackaging.Sdk

open Files Shell Var

variable {α : Type} {kit : Kit α} {v : Site} {p : Packaging} {cwd B L : Path} {i : List Char}
  {visited : List (List Char)} {t u : FileTree α} {s s' s'' : Packing α}

/-! ### Folders in the tree -/

/-- The files of a directory. -/
def folder (t : FileTree α) (p : Path) : Folder α where
  file n := t.content (p ++ [n])
  flat n hn := by
    rw [FileTree.content, Option.bind_eq_none_iff]
    intro x there
    exact absurd hn (t.proper p n (by rw [there]; rfl)).2.1

theorem folder_eq {f g : Folder α} (same : ∀ n, f.file n = g.file n) : f = g := by
  cases f
  cases g
  obtain rfl := funext same
  rfl

theorem copyDep_file (build sdk : Folder α) (i n : List Char) : (copyDep build sdk i).file n =
    if n = archive i ∧ (build.file n).isSome then build.file n else sdk.file n := rfl

theorem archive_proper (flat : '/' ∉ i) : Proper (archive i) := by
  have letter : 'l' ∈ archive i := by simp [archive]
  apply proper_of_mem (by decide) letter
  simp [archive, flat]

/-- The archives of `B` have been copied into `L`. -/
structure Copied (B L : Path) (visited : List (List Char)) (s s' : Packing α) : Prop where
  elsewhere : FileTree.AgreeOff L s.tree s'.tree
  dirs : ∀ q, s'.tree.isDir q = s.tree.isDir q
  uploads : s'.uploads = s.uploads
  files : folder s'.tree L = copyDeps (folder s.tree B) visited (folder s.tree L)

theorem Copied.refl (B L : Path) (s : Packing α) : Copied B L [] s s :=
  ⟨.refl L s.tree, fun _ => rfl, rfl, rfl⟩

/-- One archive, and then the others. -/
theorem Copied.cons (off : ∀ n, ¬ L <+: B ++ [n]) (first : Copied B L [i] s s')
    (rest : Copied B L visited s' s'') : Copied B L (i :: visited) s s'' := by
  have build : folder s'.tree B = folder s.tree B :=
    folder_eq fun n => first.elsewhere.content (off n)
  refine ⟨first.elsewhere.trans rest.elsewhere, fun q => (rest.dirs q).trans (first.dirs q),
    rest.uploads.trans first.uploads, ?_⟩
  rw [rest.files, build, first.files]
  rfl

/-! ### The loop -/

/-- `cp` of one file to a name. -/
theorem cp_file {src dst : List Char} (ends : dst.getLast? ≠ some '/')
    (one : s.tree.copyAll false (resolve cwd dst) [resolve cwd src] = (u, true)) :
    cp cwd false [.quoted src] (.quoted dst) s = .ok { s with tree := u } := by
  simp [cp, Arg.words, one, ends]

section Loop

variable (source : ∀ n, Proper n → resolve cwd (sub v.build "lib/" ++ n) = B ++ [n])
  (target : ∀ n, Proper n → resolve cwd (sub (localTarget v p) "lib/" ++ n) = L ++ [n])
  (off : ∀ n, ¬ L <+: B ++ [n])

include source target off

/-- **One archive**: the step never fails. -/
theorem copyDepLib_copied (dir : s.tree.isDir L = true) (flat : '/' ∉ i)
    (free : s.tree.isDir (L ++ [archive i]) = false) :
    ∃ s', copyDepLib v p cwd i s = .ok s' ∧ Copied B L [i] s s' := by
  have proper := archive_proper flat
  have from_ := source _ proper
  have into := target _ proper
  have asked : isFile cwd (.quoted (sub v.build "lib/" ++ archive i)) s.tree
      = s.tree.isFile (B ++ [archive i]) := by rw [← from_]; rfl
  unfold copyDepLib given
  rw [asked]
  cases held : s.tree.content (B ++ [archive i]) with
  | none =>
    have missing : ¬ s.tree.isFile (B ++ [archive i]) = true := by simp [FileTree.isFile, held]
    rw [if_neg missing]
    refine ⟨s, rfl, .refl L s.tree, fun _ => rfl, rfl, folder_eq fun n => ?_⟩
    have absent : (folder s.tree B).file (archive i) = none := held
    show _ = (copyDep (folder s.tree B) (folder s.tree L) i).file n
    rw [copyDep_file, if_neg]
    rintro ⟨rfl, there⟩
    rw [absent] at there
    cases there
  | some a =>
    have there : s.tree.isFile (B ++ [archive i]) = true := FileTree.isFile_of_content held
    have plain : ¬ s.tree.isDir (B ++ [archive i]) = true := fun folder =>
      FileTree.not_isDir_of_isFile there (FileTree.isDir_iff.mp folder)
    have apart : B ++ [archive i] ≠ L ++ [archive i] := fun same =>
      off _ (same ▸ List.prefix_append L _)
    have room : s.tree.free (L ++ [archive i]) = true :=
      FileTree.free_append.mpr ⟨dir, proper, free⟩
    obtain ⟨u, written⟩ := Option.isSome_iff_exists.mp
      (FileTree.write_isSome (a := a).mpr room)
    have one : s.tree.copyAll false (L ++ [archive i]) [B ++ [archive i]] = (u, true) := by
      have copied : s.tree.copyOne false (L ++ [archive i]) (B ++ [archive i]) = some u := by
        have landing : s.tree.landing (L ++ [archive i]) (B ++ [archive i])
            = L ++ [archive i] := if_neg (by rw [free]; decide)
        rw [FileTree.copyOne, if_neg plain, landing, if_neg apart, held]
        exact written
      rw [FileTree.copyAll, copied]
      rfl
    have ends : (sub (localTarget v p) "lib/" ++ archive i).getLast? ≠ some '/' := by
      have last : archive i = "lib".toList ++ i ++ ['.'] ++ ['a'] := by simp [archive]
      rw [last, ← List.append_assoc, List.getLast?_concat]
      decide
    have ran : cp cwd false [.quoted (sub v.build "lib/" ++ archive i)]
        (.quoted (sub (localTarget v p) "lib/" ++ archive i)) s = .ok { s with tree := u } :=
      cp_file ends (by rw [from_, into, one])
    rw [if_pos there]
    refine ⟨{ s with tree := u }, ?_, ?_, fun q => FileTree.write_isDir written, rfl,
      folder_eq fun n => ?_⟩
    · rw [run, List.foldlM_cons, ran]
      rfl
    · exact (FileTree.write_agreeOff written).above (List.prefix_append L _)
    · show u.content (L ++ [n]) = (copyDep (folder s.tree B) (folder s.tree L) i).file n
      by_cases here : n = archive i
      · subst here
        have present : (folder s.tree B).file (archive i) = some a := held
        rw [FileTree.write_content written, copyDep_file, if_pos ⟨rfl, by rw [present]; rfl⟩,
          present]
      · have other : L ++ [n] ≠ L ++ [archive i] := by simp [here]
        rw [copyDep_file, if_neg fun h => here h.1, FileTree.content,
          FileTree.write_other written other]
        rfl

/-- **The loop over the tree is the loop over folders.** -/
theorem deps_loop (dir : s.tree.isDir L = true) (flat : ∀ i ∈ visited, '/' ∉ i)
    (free : ∀ i ∈ visited, s.tree.isDir (L ++ [archive i]) = false) :
    ∃ s', visited.foldlM (fun s i => copyDepLib v p cwd i s) s = .ok s' ∧
      Copied B L visited s s' := by
  induction visited generalizing s with
  | nil => exact ⟨s, rfl, .refl B L s⟩
  | cons i visited ih =>
    rw [List.forall_mem_cons] at flat free
    obtain ⟨s₁, first, copied⟩ := copyDepLib_copied source target off dir flat.1 free.1
    obtain ⟨s₂, rest, others⟩ := ih (s := s₁) (by rw [copied.dirs, dir]) flat.2
      fun j hj => by rw [copied.dirs, free.2 j hj]
    refine ⟨s₂, ?_, copied.cons off others⟩
    rw [List.foldlM_cons, first]
    exact rest

end Loop

/-! ### A run on a platform -/

/-- The words of the loop. -/
theorem fields_depLibs {printed : String}
    (asked : ask kit cwd (newMapnikConfig v p) "--dep-libs" t = some printed) :
    depNames kit.dialect printed.toList = some (fields (depLibs kit v p cwd t)) := by
  rw [depNames, depLibs, compile_stripFlags, asked]
  rfl

/-- What the loop visits, where no name holds the flag. -/
theorem each_depLibs {printed : String} {names : List LibName}
    (asked : ask kit cwd (newMapnikConfig v p) "--dep-libs" s.tree = some printed)
    (words : fields printed.toList = names.map fun n => "-l".toList ++ n.text)
    (good : ∀ n ∈ names, Bare n.text ∧ ¬ "-l".toList <:+: n.text) :
    each cwd (depLibs kit v p cwd) (copyDepLib v p cwd) s =
      (names.map LibName.text).foldlM (fun s i => copyDepLib v p cwd i s) s := by
  have visited := (fields_depLibs asked).symm.trans
    (depNames_decoded words fun n hn => (good n hn).2)
  rw [Option.some.injEq] at visited
  have bare : ∀ w ∈ fields (depLibs kit v p cwd s.tree), Bare w := by
    rw [visited, List.forall_mem_map]
    exact fun n hn => (good n hn).1
  rw [each, unquoted_fields bare, visited]

/-- Without a universal prefix: the libraries of mapnik, and then the loop. -/
theorem copyLibs_single (single : s.tree.isDir (resolve cwd v.build_universal.toList) = false)
    (ran : copyLibs kit v p cwd s = .ok s') : ∃ s₁,
      cp cwd false [.split (sub v.mapnik_bin_source "lib/libmapnik*")]
        (.split (sub (localTarget v p) "lib/")) s = .ok s₁ ∧
      each cwd (depLibs kit v p cwd) (copyDepLib v p cwd) s₁ = .ok s' := by
  unfold copyLibs at ran
  rw [single, if_neg (by decide), run_cons, bind_eq_ok] at ran
  obtain ⟨s₁, mapnik, ran⟩ := ran
  rw [run_cons, bind_eq_ok] at ran
  obtain ⟨s₂, loop, done⟩ := ran
  obtain rfl : s₂ = s' := Except.ok.inj done
  exact ⟨s₁, mapnik, loop⟩

/-- Files are copied: there is no new directory. -/
theorem cp_isDir {sources : List Arg} {target : Arg}
    (ran : cp cwd false sources target s = .ok s') (q : Path) :
    s'.tree.isDir q = s.tree.isDir q := by
  simp only [cp] at ran
  split at ran
  · split at ran
    · cases ran
    · split at ran
      · obtain rfl := Except.ok.inj ran
        exact FileTree.copyAll_isDir
      · cases ran
  · cases ran

section Platforms

variable {m : Machine} {P : Platform} {places : List Path} {start : Path}

theorem resolve_build_lib (absolute : m.rootdir.toList.head? = some '/') {n : Name}
    (proper : Proper n) : resolve cwd (sub (P.site m).build "lib/" ++ n)
      = Universal.at_ m P start P.slice ["lib".toList] ++ [n] := by
  have flat : '/' ∉ P.slice.toList := by cases P <;> decide
  have text : sub (P.site m).build "lib/" ++ n = Universal.libIn (P.exported m) P.slice n := by
    have build : (P.site m).build.toList = Universal.below m (Universal.entry P P.slice) :=
      Universal.build_eq
    rw [Universal.libIn_eq]
    simp [sub, build, Universal.below]
  rw [text, Universal.resolve_libIn flat proper.single, at_absolute absolute, ← Universal.at_append]
  rfl

theorem resolve_lib_name (absolute : m.rootdir.toList.head? = some '/') {n : Name}
    (proper : Proper n) :
    resolve cwd (sub (localTarget (P.site m) p) "lib/" ++ n) = libDir m p ++ [n] := by
  have text : sub (localTarget (P.site m) p) "lib/" ++ n
      = sub (localTarget (P.site m) p) "lib" ++ '/' :: n := by
    simp [sub]
  rw [text, resolve_slash, resolve_end _ (by simp [sub]), resolve_lib absolute,
    components_of_single proper.single]

/-- The libraries of mapnik go into `lib` alone. -/
theorem Orderly.mapnik_outside (orderly : Orderly kit m p places)
    (bare : Bare p.packageName.toList) (dir : s.tree.isDir (libDir m p) = true)
    {sources : List Arg} (ran : cp (distDir m) false sources
      (.split (sub (localTarget (P.site m) p) "lib/")) s = .ok s') :
    FileTree.AgreeOutside [libDir m p] s.tree s'.tree := by
  have below : (Arg.split (sub (localTarget (P.site m) p) "lib/")).Below [libDir m p]
      [distDir m ++ components p.packageName.toList] (distDir m) := by
    have plain : Bare "lib/".toList := by decide
    exact ⟨_, orderly.package_words (P := P) bare plain, _, _, [],
      resolve_lib_slash (P := P) orderly.absolute, List.mem_singleton_self _,
      List.mem_singleton_self _⟩
  have above : ∀ d ∈ [distDir m ++ components p.packageName.toList],
      s.tree.isDir d = true := by
    intro d hd
    rw [List.mem_singleton.mp hd]
    exact FileTree.isDir_of_below (List.prefix_append _ ["lib".toList]) dir
  exact ((keeps_cp below).of_ok above ran).outside

/-- `mapnik-config` is no library. -/
theorem config_apart (absolute : m.rootdir.toList.head? = some '/') :
    ¬ libDir m p <+: resolve cwd (newMapnikConfig (P.site m) p) := by
  have config : components "bin/mapnik-config".toList =
      ["bin".toList, "mapnik-config".toList] := by decide
  rw [newMapnikConfig, resolve_package absolute, config, libDir, List.prefix_append_right_inj,
    List.cons_prefix_cons]
  exact fun h => absurd h.1 (by decide)

/-- **The dependencies of a package**: when the libraries of a single architecture have been
copied, each archive of the prefix that `mapnik-config` names is in the package, as it is in the
prefix. -/
theorem deps_packaged {e₀ e : Env Var} {printed : String} {names : List LibName} {n : LibName}
    {a : α} (usable : P.usableOn m) (sourced : P.source m e₀ = .ok e) (hv : site e = some v)
    (orderly : Orderly kit m p places) (bare : Bare p.packageName.toList)
    (single : s.tree.isDir (Universal.at_ m P start "universal" []) = false)
    (dir : s.tree.isDir (libDir m p) = true)
    (asked : ask kit (distDir m) (newMapnikConfig v p) "--dep-libs" s.tree = some printed)
    (words : fields printed.toList = names.map fun n => "-l".toList ++ n.text)
    (good : ∀ n ∈ names, Bare n.text ∧ '/' ∉ n.text ∧ ¬ "-l".toList <:+: n.text)
    (free : ∀ n ∈ names, s.tree.isDir (libDir m p ++ [archive n.text]) = false)
    (ran : copyLibs kit v p (distDir m) s = .ok s') (named : n ∈ names)
    (built : s.tree.content (Universal.at_ m P start P.slice ["lib".toList, archive n.text])
      = some a) :
    s'.tree.content (libDir m p ++ [archive n.text]) = some a := by
  obtain rfl : P.site m = v :=
    Option.some.inj ((site_of_source usable sourced).symm.trans hv)
  have off : ∀ n, ¬ libDir m p <+: Universal.at_ m P start P.slice ["lib".toList] ++ [n] := by
    intro n
    rw [← Universal.at_append, libDir, List.append_assoc]
    exact dist_apart orderly.absolute _ _ _
  have root : resolve (distDir m) (P.site m).build_universal.toList
      = Universal.at_ m P start "universal" [] := resolve_universal orderly.absolute
  obtain ⟨s₁, mapnik, loop⟩ := copyLibs_single (by rw [root, single]) ran
  -- the libraries of mapnik are files in `lib`, so what the loop reads is as it was
  have frame := orderly.mapnik_outside bare dir mapnik
  have dirs := cp_isDir mapnik
  have asked₁ : ask kit (distDir m) (newMapnikConfig (P.site m) p) "--dep-libs" s₁.tree
      = some printed := by
    rw [← asked, ask, ask, frame.content]
    intro r hr
    rw [List.mem_singleton.mp hr]
    exact config_apart orderly.absolute
  have there : s₁.tree.content (Universal.at_ m P start P.slice ["lib".toList] ++
      [archive n.text]) = some a := by
    rw [frame.content fun r hr => by rw [List.mem_singleton.mp hr]; exact off _,
      ← Universal.at_append]
    exact built
  have source : ∀ n, Proper n → resolve (distDir m) (sub (P.site m).build "lib/" ++ n)
      = Universal.at_ m P start P.slice ["lib".toList] ++ [n] :=
    fun n hn => resolve_build_lib orderly.absolute hn
  rw [each_depLibs asked₁ words fun n hn => ⟨(good n hn).1, (good n hn).2.2⟩] at loop
  obtain ⟨s₂, looped, copied⟩ := deps_loop source
    (fun n hn => resolve_lib_name orderly.absolute hn) off ((dirs _).trans dir)
    (List.forall_mem_map.mpr fun n hn => (good n hn).2.1)
    (List.forall_mem_map.mpr fun n hn => (dirs _).trans (free n hn))
  obtain rfl : s₂ = s' := Except.ok.inj (looped.symm.trans loop)
  have packaged : (folder s₂.tree (libDir m p)).file (archive n.text) = some a := by
    rw [copied.files]
    exact copyDeps_file _ (List.mem_map_of_mem named) there _
  exact packaged

/-- The files when the libraries of iPhoneOS are copied: mapnik and zlib have been built. -/
def packageEntries : List (Path × Node String) :=
  let out := Universal.boxOut
  let package := out ++ ["dist".toList, deviceRun.packageName.toList]
  let build := out ++ [Universal.entry .iPhoneOS (Platform.slice .iPhoneOS)]
  let mapnik := out ++ ["build-cpp11-libcpp-armv7-iphoneos-mapnik".toList]
  [(["tmp".toList], .dir), (["r".toList], .dir), (["r".toList, "osx".toList], .dir), (out, .dir),
    (out ++ ["dist".toList], .dir), (package, .dir), (package ++ ["lib".toList], .dir),
    (package ++ ["bin".toList], .dir),
    (package ++ ["bin".toList, "mapnik-config".toList], .file "config"),
    (build, .dir), (build ++ ["lib".toList], .dir),
    (build ++ ["lib".toList, "libz.a".toList], .file "zlib"),
    (mapnik, .dir), (mapnik ++ ["usr".toList], .dir),
    (mapnik ++ ["usr".toList, "local".toList], .dir),
    (mapnik ++ ["usr".toList, "local".toList, "lib".toList], .dir),
    (mapnik ++ ["usr".toList, "local".toList, "lib".toList, "libmapnik.a".toList],
      .file "mapnik")]

def packageTree : FileTree String := .ofEntries packageEntries (by decide +kernel)

theorem packageTree_copied : (copyLibs packageKit (Platform.site Universal.buildBox .iPhoneOS)
    deviceRun (distDir Universal.buildBox) ⟨packageTree, []⟩).isOk = true := by
  decide +kernel

/-- What there is, and what there is not. -/
theorem packageTree_holds : packageTree.isDir
      (Universal.at_ Universal.buildBox .iPhoneOS [] "universal" []) = false ∧
    packageTree.isDir (libDir Universal.buildBox deviceRun) = true ∧
    packageTree.isDir (libDir Universal.buildBox deviceRun ++ ["libz.a".toList]) = false ∧
    ask packageKit (distDir Universal.buildBox)
      (newMapnikConfig (Platform.site Universal.buildBox .iPhoneOS) deviceRun) "--dep-libs"
      packageTree = some "-lz" ∧
    packageTree.content (Universal.at_ Universal.buildBox .iPhoneOS []
      (Platform.slice .iPhoneOS) ["lib".toList, "libz.a".toList]) = some "zlib" := by
  decide +kernel

/-- zlib for iPhoneOS. -/
theorem deps_packaged_iPhoneOS : ∃ s', copyLibs packageKit
      (Platform.site Universal.buildBox .iPhoneOS) deviceRun (distDir Universal.buildBox)
      ⟨packageTree, []⟩ = .ok s' ∧
    s'.tree.content (libDir Universal.buildBox deviceRun ++ ["libz.a".toList]) = some "zlib" := by
  have usable : Platform.usableOn Universal.buildBox .iPhoneOS := rfl
  obtain ⟨e, sourced⟩ := Universal.buildShell_completes (P := .iPhoneOS) rfl
  obtain ⟨z, text⟩ : ∃ z : LibName, z.text = "z".toList :=
    ⟨⟨"z".toList, by decide, by simp [isBlank]⟩, rfl⟩
  have file : archive z.text = "libz.a".toList := by rw [text]; decide
  obtain ⟨single, dir, absent, asked, built⟩ := packageTree_holds
  have words : fields "-lz".toList = [z].map fun n => "-l".toList ++ n.text := by
    rw [List.map_singleton, text]
    decide
  have good : ∀ n ∈ [z], Bare n.text ∧ '/' ∉ n.text ∧ ¬ "-l".toList <:+: n.text := by
    rw [List.forall_mem_singleton, text]
    decide
  have free : ∀ n ∈ [z], packageTree.isDir
      (libDir Universal.buildBox deviceRun ++ [archive n.text]) = false := by
    rwa [List.forall_mem_singleton, file]
  rw [← file] at built
  cases ran : copyLibs packageKit (Platform.site Universal.buildBox .iPhoneOS) deviceRun
      (distDir Universal.buildBox) ⟨packageTree, []⟩ with
  | error s' =>
    have copied := packageTree_copied
    rw [ran] at copied
    cases copied
  | ok s' =>
    have packaged := deps_packaged usable sourced (site_of_source usable sourced)
      packageKit_orderly (by decide) single dir asked words good free ran
      (List.mem_singleton_self z) built
    exact ⟨s', rfl, file ▸ packaged⟩

end Platforms

end MapnikPackaging.Sdk
