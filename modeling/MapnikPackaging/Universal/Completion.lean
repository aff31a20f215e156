/-
When `make_universal.sh` runs to its end.

`LIBS` is collected from every prefix under `out/`, the inputs are looked up under the listed ones,
and the last step is guarded by one build of mapnik but names six. `never_aborts_iff` says for
which trees every call of `lipo` can be served and every name is reached: some `lib` exists, every
name in `LIBS` is in the `lib` of a listed prefix, and mapnik has not been built for the platform
that is set, because the list of the last step has prefixes that no platform builds.

* `makeUniversal_needs` — what a run to the end takes.
* `makeUniversal_loops` — what the loops take.
* `makeUniversal_completes` — and that it is enough.
-/

import MapnikPackaging.Universal.Merge

namespace MapnikPackaging

open Files Shell Var

namespace Universal

variable {α : Type}

/-- What the scripts of the repository leave under `out/`. -/
structure OutTree (m : Machine) (P : Platform) (cwd : Path) (arch : α → String) (t : FileTree α) :
    Prop where
  out : t.isDir (outDir m cwd) = true
  universal : t.isFile (at_ m P cwd "universal" []) = false
  /-- a prefix is that of a platform, -/
  platforms : OfPlatforms m P cwd t
  /-- so is a build of mapnik, -/
  mapniks : ∀ a ∈ mapnikArchs, t.isDir (at_ m P cwd (a ++ "-mapnik") []) = true →
    ∃ Q : Platform, Q.slice = a
  /-- with archives of its architecture; -/
  sliced : Sliced m P cwd arch t
  /-- what is a directory in one is no file in another, -/
  consistent : ∀ a ∈ archs, ∀ b ∈ "universal" :: archs, ¬ Clashes m P cwd t a b
  /-- and no archive has a pattern for a name. -/
  plain : ∀ k, Archived m cwd t k → Plain k

/-- What the script needs to reach its end. -/
def Complete (m : Machine) (P : Platform) (cwd : Path) (t : FileTree α) : Prop :=
  m.uname_s = "Darwin" → AnyLib m cwd t ∧
    (∀ w, LibWord m cwd t w → ∃ a ∈ archs, t.isFile (at_ m P cwd a ["lib".toList, w]) = true) ∧
    t.isFile (mapnikLib m P cwd) = false

/-- **The script never aborts midway**: each of its calls can be served, and it reaches every name
in `LIBS`. -/
structure NeverAborts (m : Machine) (P : Platform) (cwd : Path) (t : FileTree α)
    (run : Except (Progress α) (Progress α)) : Prop where
  served : ∀ c ∈ (left run).calls, Served cwd c
  ends : ∃ s, run = .ok s
  reached : m.uname_s = "Darwin" → ∀ w, LibWord m cwd t w →
    ∃ c ∈ (left run).calls, c.output = universalLib (P.exported m) w

section Completion

variable {m : Machine} {P : Platform} {cwd : Path} {arch : α → String} {tools : Tools α}
  {t u : FileTree α} {s : Progress α} {text w : List Char}

/-! ### The tree the loops begin with -/

theorem not_universal (n : Name) (r : Path) (nonempty : r ≠ []) :
    outDir m cwd ++ n :: r ≠ at_ m P cwd "universal" [] := by
  intro same
  have tail := List.append_cancel_left same
  exact nonempty (List.cons.inj tail).2

theorem archived_congr (same : ∀ q ≠ at_ m P cwd "universal" [], u.node q = t.node q) (k : Name) :
    Archived m cwd u k ↔ Archived m cwd t k := by
  refine and_congr_right fun _ => exists_congr fun n => and_congr_right fun _ => ?_
  rw [same _ (not_universal n _ (by simp))]

theorem libWord_congr (same : ∀ q ≠ at_ m P cwd "universal" [], u.node q = t.node q) :
    LibWord m cwd u w ↔ LibWord m cwd t w :=
  exists_congr fun k => and_congr_left fun _ => archived_congr same k

theorem anyLib_congr (same : ∀ q ≠ at_ m P cwd "universal" [], u.node q = t.node q) :
    AnyLib m cwd u ↔ AnyLib m cwd t := by
  refine exists_congr fun n => and_congr_right fun _ => ?_
  rw [same _ (not_universal n _ (by simp))]

theorem agreeOff_of_same (same : ∀ q ≠ at_ m P cwd "universal" [], u.node q = t.node q) :
    FileTree.AgreeOff (at_ m P cwd "universal" []) t u := by
  intro q off
  exact same q fun h => off (h ▸ List.prefix_refl _)

theorem isFile_congr (same : ∀ q ≠ at_ m P cwd "universal" [], u.node q = t.node q) (a : String)
    {r : Path} (nonempty : r ≠ []) : u.isFile (at_ m P cwd a r) = t.isFile (at_ m P cwd a r) := by
  rw [FileTree.isFile, FileTree.content, same (at_ m P cwd a r) (not_universal _ r nonempty)]
  rfl

theorem clashes_congr (same : ∀ q ≠ at_ m P cwd "universal" [], u.node q = t.node q)
    (a b : String) : Clashes m P cwd u a b ↔ Clashes m P cwd t a b := by
  refine exists_congr fun r => and_congr_right fun hr => ?_
  rw [same (at_ m P cwd a r) (not_universal _ r hr), same (at_ m P cwd b r) (not_universal _ r hr)]

/-- A word of `LIBS` is a name that stands for itself. -/
theorem bare_of_libWord (plain : ∀ k, Archived m cwd t k → Plain k) (h : LibWord m cwd t w) :
    Bare w ∧ Single w := by
  obtain ⟨k, archived, hw⟩ := h
  obtain ⟨nonempty, chars⟩ := mem_fields hw
  have plain := plain k archived
  obtain ⟨-, n, -, there⟩ := archived
  have name : Proper k := t.proper (outDir m cwd ++ [n, "lib".toList]) k (by simpa using there)
  exact ⟨fun c hc => ⟨(chars c hc).1, plain c (chars c hc).2⟩, nonempty,
    fun slash => name.2.1 (chars '/' slash).2⟩

/-- The script after its first step. -/
theorem makeUniversal_eq (tools : Tools α) (out : t.isDir (outDir m cwd) = true)
    (free : t.isFile (at_ m P cwd "universal" []) = false) :
    ∃ u : FileTree α, u.isDir (at_ m P cwd "universal" []) = true ∧
      (∀ q ≠ at_ m P cwd "universal" [], u.node q = t.node q) ∧
      makeUniversal tools cwd (P.exported m) ⟨t, []⟩ =
        if m.uname_s = "Darwin" then
          match libs cwd (P.exported m) u with
          | some text => merging tools cwd (P.exported m) text ⟨u, []⟩
          | none => .error ⟨u, []⟩
        else .ok ⟨u, []⟩ := by
  obtain ⟨u, made, root, same⟩ := mkdirs_universal (P := P) out free
  refine ⟨u, root, same, ?_⟩
  rw [makeUniversal, onTree, resolve_build_universal, made]
  rfl

/-! ### What it needs -/

theorem slice_ne_arm64_iphoneos (Q : Platform) : Q.slice ≠ "arm64-iphoneos" := by
  cases Q <;> decide

/-- The last step goes through only without a build of mapnik: no platform builds
`arm64-iphoneos`. -/
theorem mapnik_absent (tree : OutTree m P cwd arch t) (bare : Bare m.rootdir.toList)
    (frame : FileTree.AgreeOff (at_ m P cwd "universal" []) t s.tree) : Ends
    (fun s' => t.isFile (mapnikLib m P cwd) = false ∧ s' = s) (fun _ => True)
    (mergeMapnik tools cwd (P.exported m) s) := by
  refine (mergeMapnik_ends bare frame).mono ?_ fun _ _ => trivial
  rintro s' (absent | ⟨-, -, contents, -, read, -⟩)
  · exact absent
  · have listed : "arm64-iphoneos" ∈ mapnikArchs := by decide
    have input := (forall_of_mapM read).1 (mapnikIn (P.exported m) "arm64-iphoneos")
      (List.mem_map_of_mem listed)
    rw [resolve_mapnikIn (by decide), frame.content (at_apart (by decide) [] _)] at input
    have file : t.isFile (at_ m P cwd ("arm64-iphoneos" ++ "-mapnik")
      ["usr".toList, "local".toList, "lib".toList, "libmapnik.a".toList]) = true := input
    obtain ⟨Q, hQ⟩ := tree.mapniks _ listed (isDir_of_holds (by simp) file)
    exact absurd hQ (slice_ne_arm64_iphoneos Q)

/-- **What a run to the end takes.** -/
theorem makeUniversal_needs (tree : OutTree m P cwd arch t) (bare : Bare m.rootdir.toList)
    (joins : Joins tools arch) : Ends (fun _ => Complete m P cwd t) (fun _ => True)
    (makeUniversal tools cwd (P.exported m) ⟨t, []⟩) := by
  obtain ⟨u, root, same, run⟩ := makeUniversal_eq (P := P) tools tree.out tree.universal
  rw [run]
  split
  · next darwin =>
    by_cases any : AnyLib m cwd u
    · obtain ⟨text, collected, words⟩ := libs_some (P := P) bare any
      simp only [collected]
      have good : ∀ w ∈ fields text, Bare w ∧ Single w := fun w hw =>
        bare_of_libWord tree.plain ((libWord_congr same).mp ((words w).mp hw))
      refine (mergePrefixes_ends bare root).mono (fun _ h => h) (fun _ _ => trivial) |>.bind ?_
      intro s₁ copied
      rw [unquoted_fields fun w hw => (good w hw).1]
      have frame : FileTree.AgreeOff (at_ m P cwd "universal" []) t s₁.tree :=
        (agreeOff_of_same same).trans copied.elsewhere
      apply (mergeLibs_needs bare joins good frame).bind
      rintro s₂ ⟨frame, covered⟩
      refine (mapnik_absent tree bare frame).mono ?_ fun _ _ => trivial
      rintro s₃ ⟨absent, -⟩ -
      refine ⟨(anyLib_congr same).mp any, fun w hw => ?_, absent⟩
      obtain ⟨a, ha⟩ := List.exists_mem_of_ne_nil _
        (covered w ((words w).mpr ((libWord_congr same).mpr hw)))
      exact ⟨a, (List.mem_filter.mp ha).1, (List.mem_filter.mp ha).2⟩
    · rw [libs_none bare any]
      trivial
  · next other => exact fun darwin => absurd darwin other

/-! ### That it is enough -/

/-- **The loops reach every name**, each with a call that is served, and leave the last step. -/
theorem makeUniversal_loops (tree : OutTree m P cwd arch t) (bare : Bare m.rootdir.toList)
    (joins : Joins tools arch) (darwin : m.uname_s = "Darwin") (any : AnyLib m cwd t)
    (covered : ∀ w, LibWord m cwd t w →
      ∃ a ∈ archs, t.isFile (at_ m P cwd a ["lib".toList, w]) = true) :
    ∃ s : Progress α, makeUniversal tools cwd (P.exported m) ⟨t, []⟩
        = mergeMapnik tools cwd (P.exported m) s ∧
      FileTree.AgreeOff (at_ m P cwd "universal" []) t s.tree ∧
      (∀ c ∈ s.calls, Served cwd c) ∧
      ∀ w, LibWord m cwd t w → ∃ c ∈ s.calls, CallFor m P cwd t w c := by
  obtain ⟨u, root, same, run⟩ := makeUniversal_eq (P := P) tools tree.out tree.universal
  obtain ⟨text, collected, words⟩ := libs_some (P := P) bare ((anyLib_congr same).mpr any)
  have listed : ∀ w ∈ fields text, LibWord m cwd t w := fun w hw =>
    (libWord_congr same).mp ((words w).mp hw)
  have good : ∀ w ∈ fields text, Bare w ∧ Single w := fun w hw =>
    bare_of_libWord tree.plain (listed w hw)
  have holds : ∀ w ∈ fields text, ∃ a ∈ archs,
      t.isFile (at_ m P cwd a ["lib".toList, w]) = true := fun w hw => covered w (listed w hw)
  have copies : Ends (Copied tools m P cwd ⟨u, []⟩) (fun _ => False)
      (archs.foldlM (fun s arch => mergePrefix tools cwd (P.exported m) arch s) ⟨u, []⟩) := by
    refine (mergePrefixes_ends bare root).mono (fun _ h => h) ?_
    rintro _ ⟨-, -, a, ha, b, hb, clashes⟩
    exact tree.consistent a ha b hb ((clashes_congr same a b).mp clashes)
  obtain ⟨s₁, copies_ran, copied⟩ := copies.completes
  have frame : FileTree.AgreeOff (at_ m P cwd "universal" []) t s₁.tree :=
    (agreeOff_of_same same).trans copied.elsewhere
  have held : ∀ w ∈ fields text, holding m P cwd t w ≠ [] := by
    intro w hw
    obtain ⟨a, ha, file⟩ := holds w hw
    exact List.ne_nil_of_mem (List.mem_filter.mpr ⟨ha, file⟩)
  have copy : ∀ w ∈ fields text,
      s₁.tree.isFile (at_ m P cwd "universal" ["lib".toList, w]) = true := by
    intro w hw
    obtain ⟨a, ha, file⟩ := holds w hw
    rw [copied.files _ (by simp), Bool.or_eq_true, List.any_eq_true]
    exact .inr ⟨a, ha, by rwa [isFile_congr same a (by simp)]⟩
  obtain ⟨s₂, loop_ran, frame, served, reached⟩ :=
    (mergeLibs_completes bare joins tree.platforms tree.sliced listed good frame held
      copy).completes
  refine ⟨s₂, ?_, frame, fun c hc => ?_, fun w hw =>
    reached w ((words w).mpr ((libWord_congr same).mpr hw))⟩
  · rw [run, if_pos darwin, collected]
    simp only [merging, copies_ran, unquoted_fields fun w hw => (good w hw).1, loop_ran, bind,
      Except.bind]
  · rcases served c hc with earlier | served
    · rw [copied.calls] at earlier
      cases earlier
    · exact served

/-- **The condition is enough.** -/
theorem makeUniversal_completes (tree : OutTree m P cwd arch t) (bare : Bare m.rootdir.toList)
    (joins : Joins tools arch) (complete : Complete m P cwd t) : Ends
    (fun s => (∀ c ∈ s.calls, Served cwd c) ∧ (m.uname_s = "Darwin" → ∀ w, LibWord m cwd t w →
      ∃ c ∈ s.calls, CallFor m P cwd t w c))
    (fun _ => False) (makeUniversal tools cwd (P.exported m) ⟨t, []⟩) := by
  by_cases darwin : m.uname_s = "Darwin"
  · obtain ⟨any, covered, absent⟩ := complete darwin
    obtain ⟨s, run, frame, served, reached⟩ :=
      makeUniversal_loops tree bare joins darwin any covered
    rw [run]
    refine (mergeMapnik_ends bare frame).mono ?_ ?_
    · rintro s₃ (⟨-, rfl⟩ | ⟨built, -⟩)
      · exact ⟨served, fun _ => reached⟩
      · rw [absent] at built
        cases built
    · rintro s₃ ⟨built, -⟩
      rw [absent] at built
      cases built
  · obtain ⟨u, root, same, run⟩ := makeUniversal_eq (P := P) tools tree.out tree.universal
    rw [run, if_neg darwin]
    exact ⟨by simp, fun yes => absurd yes darwin⟩

/-- **When the script never aborts.** -/
theorem never_aborts_iff {e₀ e : Env Var} {v : Exported} (usable : P.usableOn m)
    (sourced : P.source m e₀ = .ok e) (hv : exported e = some v) (bare : Bare m.rootdir.toList)
    (joins : Joins tools arch) (tree : OutTree m P cwd arch t) :
    NeverAborts m P cwd t (makeUniversal tools cwd v ⟨t, []⟩) ↔ Complete m P cwd t := by
  obtain rfl : P.exported m = v :=
    Option.some.inj ((exported_of_source usable sourced).symm.trans hv)
  constructor
  · rintro ⟨-, ⟨s, ran⟩, -⟩
    exact (makeUniversal_needs tree bare joins).of_ok ran
  · intro complete
    obtain ⟨s, ran, served, reached⟩ := (makeUniversal_completes tree bare joins complete).completes
    rw [ran]
    refine ⟨served, ⟨s, rfl⟩, fun darwin w hw => ?_⟩
    obtain ⟨c, hc, made⟩ := reached darwin w hw
    exact ⟨c, hc, made.output⟩

end Completion

/-! ### One platform, one library -/

/-- A Mac with the checkout in `/r/osx`. -/
def buildBox : Machine where
  uname_s := "Darwin"
  uname_r := "13.4.0"
  nproc := "4"
  ncpu := "4"
  rootdir := "/r/osx"
  xcrun _ := "8.1"
  xcode_select := "/Applications/Xcode.app/Contents/Developer"
  isDir _ := true
  isFile _ := false
  realDirname f := f

/-- A shell in the checkout. -/
def buildShell : Env Var
  | .cwd => some "/r/osx"
  | .PATH => some "/usr/bin:/bin"
  | _ => none

/-- An Apple script completes there. -/
theorem buildShell_completes {P : Platform} (apple : P.isApple = true) :
    ∃ e, P.source buildBox buildShell = .ok e := by
  have usable : P.usableOn buildBox := by
    cases P <;> first | rfl | cases apple
  have off : ∀ x ∈ [CC, CXX], ∀ core, TakesPlatform buildShell x core := by
    intro x hx core
    simp only [List.mem_cons, List.not_mem_nil, or_false] at hx
    rcases hx with rfl | rfl <;> exact .inl rfl
  rw [Platform.source_completes_iff usable (off CXX (by decide) _) (off CC (by decide) _)]
  refine ⟨by decide, ?_⟩
  cases P <;> trivial

/-- Archives as the names of their architectures. -/
def sliceTools : Tools String where
  lipo slices := if slices ≠ [] ∧ slices.Nodup then some (" ".intercalate slices) else none
  sed _ text := text

theorem sliceTools_joins : Joins sliceTools id where
  empty := rfl
  different as nonempty nodup := by
    rw [List.map_id] at nodup
    simp [sliceTools, nonempty, nodup]

def boxOut : Path := ["r".toList, "osx".toList, "out".toList]

def builtEntries (P : Platform) : List (Path × Node String) :=
  [(["r".toList], .dir), (["r".toList, "osx".toList], .dir), (boxOut, .dir),
    (boxOut ++ [entry P P.slice], .dir), (boxOut ++ [entry P P.slice, "lib".toList], .dir),
    (boxOut ++ [entry P P.slice, "lib".toList, "libz.a".toList], .file P.archName)]

/-- `lib/libz.a` in the prefix of one platform. -/
def built (P : Platform) : FileTree String :=
  .ofEntries (builtEntries P) (by cases P <;> decide)

section Built

variable {P : Platform} {r : Path} {a : String}

theorem outDir_buildBox : outDir buildBox [] = boxOut := by decide

/-- There is nothing else under `out/`. -/
theorem built_below {n : Name} (h : ((built P).node (boxOut ++ n :: r)).isSome = true) :
    n = entry P P.slice ∧ (r = [] ∨ r = ["lib".toList] ∨ r = ["lib".toList, "libz.a".toList]) := by
  have listed := (built P).listed _ h
  have names : ∀ q : Path, boxOut ++ n :: r = boxOut ++ q → n :: r = q :=
    fun q same => List.append_cancel_left same
  have short : ∀ q : Path, q.length ≤ 3 → boxOut ++ n :: r ≠ q := by
    intro q short same
    have : (boxOut ++ n :: r).length = q.length := congrArg List.length same
    simp only [boxOut, List.length_append, List.length_cons] at this
    omega
  simp only [built, FileTree.ofEntries, builtEntries, List.map_cons, List.map_nil, List.mem_cons,
    List.not_mem_nil, or_false] at listed
  rcases listed with h | h | h | h | h | h | h
  · exact absurd h (short _ (by decide))
  · exact absurd h (short _ (by decide))
  · exact absurd h (short _ (by decide))
  · exact absurd h (short _ (by decide))
  all_goals
    obtain ⟨rfl, rfl⟩ := List.cons.inj (names _ h)
    simp

theorem built_at (h : ((built P).node (at_ buildBox P [] a r)).isSome = true) :
    a = P.slice ∧ (r = [] ∨ r = ["lib".toList] ∨ r = ["lib".toList, "libz.a".toList]) := by
  rw [at_, outDir_buildBox] at h
  obtain ⟨same, rest⟩ := built_below h
  exact ⟨entry_inj.mp same, rest⟩

theorem built_archived {k : Name} (h : Archived buildBox [] (built P) k) :
    k = "libz.a".toList := by
  obtain ⟨-, n, -, there⟩ := h
  rw [outDir_buildBox] at there
  obtain ⟨-, h | h | h⟩ := built_below there
  · cases h
  · cases h
  · exact (List.cons.inj (List.cons.inj h).2).1

theorem built_outTree (P : Platform) : OutTree buildBox P [] id (built P) where
  out := by cases P <;> decide
  universal := by cases P <;> decide
  platforms a _ h := ⟨P, (built_at (by rw [FileTree.isDir_iff.mp h]; rfl)).1.symm⟩
  mapniks a ha h := by
    obtain ⟨same, -⟩ := built_at (by rw [FileTree.isDir_iff.mp h]; rfl)
    have other : ∀ a ∈ mapnikArchs, a ++ "-mapnik" ≠ P.slice := by cases P <;> decide
    exact absurd same (other a ha)
  sliced Q n a _ h := by
    rw [FileTree.content_eq_some] at h
    obtain ⟨same, rest⟩ := built_at (by rw [h]; rfl)
    obtain rfl := Platform.slice_injective same
    obtain rfl : n = "libz.a".toList := by
      rcases rest with h | h | h
      · cases h
      · cases h
      · exact (List.cons.inj (List.cons.inj h).2).1
    have here : (built Q).content (at_ buildBox Q [] Q.slice ["lib".toList, "libz.a".toList])
        = some Q.archName := by
      cases Q <;> decide
    rw [FileTree.content_eq_some, h] at here
    exact congrArg id (Node.file.inj (Option.some.inj here))
  consistent a _ b _ := by
    rintro ⟨r, -, clashes⟩
    obtain ⟨ha, hb⟩ := FileTree.isSome_of_clash clashes
    rw [(built_at ha).1, (built_at hb).1, FileTree.clash_self] at clashes
    cases clashes
  plain k h := by
    rw [built_archived h]
    decide

/-- What the script needs there is that the platform is a listed one. -/
theorem built_complete (listed : P.slice ∈ archs) : Complete buildBox P [] (built P) := by
  refine fun _ => ⟨?_, fun w hw => ?_, ?_⟩
  · refine ⟨entry P P.slice, by cases P <;> decide, ?_⟩
    rw [outDir_buildBox]
    cases P <;> decide
  · obtain ⟨k, archived, hw⟩ := hw
    have bare : Bare "libz.a".toList := by decide
    rw [built_archived archived, fields_of_word (by simp) fun c hc => (bare c hc).1,
      List.mem_singleton] at hw
    refine ⟨P.slice, listed, ?_⟩
    rw [hw]
    cases P <;> decide
  · cases P <;> decide

/-- iPhoneOS alone: the script runs to its end. -/
theorem never_aborts_iPhoneOS : ∃ e v, Platform.source buildBox .iPhoneOS buildShell = .ok e ∧
    exported e = some v ∧
    NeverAborts buildBox .iPhoneOS [] (built .iPhoneOS)
      (makeUniversal sliceTools [] v ⟨built .iPhoneOS, []⟩) := by
  have usable : Platform.usableOn buildBox .iPhoneOS := rfl
  obtain ⟨e, sourced⟩ := buildShell_completes (P := .iPhoneOS) rfl
  have hv := exported_of_source usable sourced
  exact ⟨e, _, sourced, hv, (never_aborts_iff usable sourced hv (by decide) sliceTools_joins
    (built_outTree .iPhoneOS)).mpr (built_complete (by decide))⟩

end Built

end Universal

end MapnikPackaging
