/-
The slices that reach the universal libraries.

The platform scripts name their prefixes after `ARCH_NAME` and the platform in lower case, and
`make_universal.sh` walks a list of its own. `slices_kept_iff` says for which platforms every
archive of every prefix is handed to `lipo`, once and with nothing else: those whose prefix is in
the list, which `iPhoneOSs.sh`, `iPhoneOS64.sh` and `iPhoneSimulator64.sh` do not build.

* `makeUniversal_calls` — the script makes no other calls.
* `makeUniversal_reaches` — it calls for every name, if each is in a listed prefix.
-/

import MapnikPackaging.Universal.Completion

namespace MapnikPackaging

open Files Shell Var

namespace Universal

variable {α : Type}

/-- The platforms of `S` have been built, and no others. -/
structure Builds (m : Machine) (Q : Platform) (cwd : Path) (arch : α → String) (S : List Platform)
    (t : FileTree α) : Prop extends OutTree m Q cwd arch t where
  libs : ∀ P ∈ S, t.isDir (at_ m Q cwd P.slice ["lib".toList]) = true
  only : ∀ n, visible n = true → (t.node (outDir m cwd ++ [n, "lib".toList])).isSome = true →
    ∃ P ∈ S, n = entry Q P.slice
  prefixes : ∀ a ∈ archs, t.isDir (at_ m Q cwd a []) = true → ∃ P ∈ S, P.slice = a
  /-- What is called an archive is a file. -/
  archives : ∀ P ∈ S, ∀ k, isArchive k = true →
    t.isDir (at_ m Q cwd P.slice ["lib".toList, k]) = false

/-- `BUILD/lib` of a platform has an archive of the name. -/
def HasArchive (m : Machine) (cwd : Path) (t : FileTree α) (P : Platform) (libname : Name) : Prop :=
  isArchive libname = true ∧ t.isFile (at_ m P cwd P.slice ["lib".toList, libname]) = true

/-- `BUILD/lib/NAME` -/
def builtLib (m : Machine) (P : Platform) (libname : Name) : List Char :=
  (P.build m).toList ++ '/' :: ("lib/".toList ++ libname)

/-- **No slice is lost**: for each name that some platform built there is a call with the archive
of each of them, once, and with nothing else. -/
def KeepsSlices (m : Machine) (cwd : Path) (S : List Platform) (v : Exported) (t : FileTree α)
    (run : Except (Progress α) (Progress α)) : Prop :=
  ∀ libname, (∃ P ∈ S, HasArchive m cwd t P libname) →
    ∃ c ∈ (left run).calls, c.output = universalLib v libname ∧ c.inputs.Nodup ∧
      ∀ input, input ∈ c.inputs ↔
        ∃ P ∈ S, HasArchive m cwd t P libname ∧ input = builtLib m P libname

section Slices

variable {m : Machine} {P Q : Platform} {cwd : Path} {arch : α → String} {tools : Tools α}
  {t : FileTree α} {w libname : List Char} {c : LipoCall α} {S : List Platform}

/-! ### The calls of a run -/

/-- The call of the last step. -/
def IsMapnikCall (m : Machine) (Q : Platform) (c : LipoCall α) : Prop :=
  c.output = (Q.exported m).build_universal.toList ++ "/libmapnik.a".toList

/-- **The script makes no other calls**, wherever it stops. -/
theorem makeUniversal_calls (tree : OutTree m Q cwd arch t) (bare : Bare m.rootdir.toList) :
    ∀ c ∈ (left (makeUniversal tools cwd (Q.exported m) ⟨t, []⟩)).calls,
      (∃ w, LibWord m cwd t w ∧ CallFor m Q cwd t w c) ∨ IsMapnikCall m Q c := by
  let J : Progress α → Prop := fun s => ∀ c ∈ s.calls,
    (∃ w, LibWord m cwd t w ∧ CallFor m Q cwd t w c) ∨ IsMapnikCall m Q c
  have none : ∀ {s : Progress α}, s.calls = [] → J s := by
    intro s none c hc
    rw [none] at hc
    cases hc
  obtain ⟨u, root, same, run⟩ := makeUniversal_eq (P := Q) tools tree.out tree.universal
  have ends : Ends J J (makeUniversal tools cwd (Q.exported m) ⟨t, []⟩) := by
    rw [run]
    split
    · by_cases any : AnyLib m cwd u
      · obtain ⟨text, collected, words⟩ := libs_some (P := Q) bare any
        simp only [collected]
        have libWord : ∀ w ∈ fields text, LibWord m cwd t w := fun w hw =>
          (libWord_congr same).mp ((words w).mp hw)
        have good : ∀ w ∈ fields text, Bare w ∧ Single w := fun w hw =>
          bare_of_libWord tree.plain (libWord w hw)
        refine ((mergePrefixes_ends bare root).mono (fun _ h => h)
          fun _ stopped => none stopped.1).bind fun s₁ copied => ?_
        rw [unquoted_fields fun w hw => (good w hw).1]
        have frame : FileTree.AgreeOff (at_ m Q cwd "universal" []) t s₁.tree :=
          (agreeOff_of_same same).trans copied.elsewhere
        have named : ∀ {s : Progress α}, (∀ c ∈ s.calls, c ∈ s₁.calls ∨
            ∃ w ∈ fields text, CallFor m Q cwd t w c) → J s := by
          intro s calls c hc
          rcases calls c hc with earlier | ⟨w, hw, made⟩
          · rw [copied.calls] at earlier
            cases earlier
          · exact .inl ⟨w, libWord w hw, made⟩
        refine ((mergeLibs_calls bare good frame).mono (fun _ h => h) fun _ h => named h).bind ?_
        rintro s₂ ⟨frame, calls⟩
        have last : ∀ {s : Progress α}, s.calls = s₂.calls ++ [mapnikCall m Q s₂.tree] → J s := by
          intro s made c hc
          rw [made, List.mem_append, List.mem_singleton] at hc
          rcases hc with hc | rfl
          · exact named calls c hc
          · exact .inr rfl
        refine (mergeMapnik_ends bare frame).mono ?_ fun s ⟨_, made, _⟩ => last made
        rintro s (⟨-, rfl⟩ | ⟨-, made, -⟩)
        · exact named calls
        · exact last made
      · rw [libs_none bare any]
        exact none rfl
    · exact none rfl
  exact ends.left

/-- The loops call for every name, whatever the last step does. -/
theorem makeUniversal_reaches (tree : OutTree m Q cwd arch t) (bare : Bare m.rootdir.toList)
    (joins : Joins tools arch) (darwin : m.uname_s = "Darwin") (any : AnyLib m cwd t)
    (covered : ∀ w, LibWord m cwd t w →
      ∃ a ∈ archs, t.isFile (at_ m Q cwd a ["lib".toList, w]) = true) :
    ∀ w, LibWord m cwd t w →
      ∃ c ∈ (left (makeUniversal tools cwd (Q.exported m) ⟨t, []⟩)).calls,
        CallFor m Q cwd t w c := by
  obtain ⟨s, run, frame, -, reached⟩ := makeUniversal_loops tree bare joins darwin any covered
  let J : Progress α → Prop := fun s' => ∀ c ∈ s.calls, c ∈ s'.calls
  have last : ∀ {s' : Progress α}, s'.calls = s.calls ++ [mapnikCall m Q s.tree] → J s' := by
    intro s' made c hc
    rw [made]
    exact List.mem_append_left _ hc
  have ends : Ends J J (mergeMapnik tools cwd (Q.exported m) s) := by
    refine (mergeMapnik_ends bare frame).mono ?_ fun s' ⟨_, made, _⟩ => last made
    rintro s' (⟨-, rfl⟩ | ⟨-, made, -⟩)
    · exact fun c hc => hc
    · exact last made
  intro w hw
  obtain ⟨c, hc, made⟩ := reached w hw
  rw [run]
  exact ⟨c, ends.left c hc, made⟩

/-! ### Names and outputs -/

theorem universalLib_inj {v : Exported} {a b : List Char}
    (same : universalLib v a = universalLib v b) : a = b := by
  have tail := List.append_cancel_left same
  exact List.append_cancel_left (List.cons.inj tail).2

theorem universalLib_ne_mapnik (v : Exported) (libname : List Char) :
    universalLib v libname ≠ v.build_universal.toList ++ "/libmapnik.a".toList := by
  intro same
  have tail := List.append_cancel_left same
  have fourth : ('/' :: ("lib/".toList ++ libname))[4]? = ("/libmapnik.a".toList)[4]? := by
    rw [tail]
  have left : ('/' :: ("lib/".toList ++ libname))[4]? = some '/' := rfl
  have right : ("/libmapnik.a".toList)[4]? = some 'm' := by decide
  rw [left, right] at fourth
  exact absurd fourth (by decide)

/-- The call for a library is the one with its output. -/
theorem callFor_of_output (tree : OutTree m Q cwd arch t) (bare : Bare m.rootdir.toList)
    (hc : c ∈ (left (makeUniversal tools cwd (Q.exported m) ⟨t, []⟩)).calls)
    (output : c.output = universalLib (Q.exported m) libname) :
    LibWord m cwd t libname ∧ CallFor m Q cwd t libname c := by
  rcases makeUniversal_calls tree bare c hc with ⟨w, word, made⟩ | mapnik
  · obtain rfl := universalLib_inj (made.output.symm.trans output)
    exact ⟨word, made⟩
  · exact absurd (output.symm.trans mapnik) (universalLib_ne_mapnik _ _)

theorem libIn_inj {v : Exported} {a b : String} (same : libIn v a libname = libIn v b libname) :
    a = b := by
  have tail := List.append_cancel_right same
  exact String.toList_inj.mp (List.cons.inj (List.append_cancel_left tail)).2

theorem apple_builddir (hP : P.isApple = true) (hQ : Q.isApple = true) :
    P.builddir = Q.builddir := by
  have apple : ∀ {P : Platform}, P.isApple = true → P.builddir = "build-cpp11-libcpp" := by
    intro P hP
    cases P <;> first | rfl | cases hP
  rw [apple hP, apple hQ]

theorem at_apple (hP : P.isApple = true) (hQ : Q.isApple = true) (a : String) (r : Path) :
    at_ m P cwd a r = at_ m Q cwd a r := by
  rw [at_, at_, entry, entry, apple_builddir hP hQ]

theorem builtLib_eq (hP : P.isApple = true) (hQ : Q.isApple = true) :
    builtLib m P libname = libIn (Q.exported m) P.slice libname := by
  rw [builtLib, build_eq, libIn_eq, entry, entry, apple_builddir hP hQ]
  simp [below]

/-- What the platforms built is what `LIBS` names. -/
theorem libWord_of_hasArchive (h : HasArchive m cwd t P libname)
    (word : fields libname = [libname]) : LibWord m cwd t libname := by
  obtain ⟨archive, file⟩ := h
  have named : libname ∈ fields libname := by
    rw [word]
    exact List.mem_singleton_self _
  refine ⟨libname, ⟨archive, entry P P.slice, ?_, ?_⟩, named⟩
  · cases P <;> decide
  · obtain ⟨a, ha⟩ := Option.isSome_iff_exists.mp file
    rw [FileTree.content_eq_some] at ha
    exact Option.isSome_iff_exists.mpr ⟨_, ha⟩

theorem hasArchive_of_archived (builds : Builds m Q cwd arch S t)
    (apple : ∀ P ∈ S, P.isApple = true) (hQ : Q.isApple = true) (h : Archived m cwd t libname) :
    ∃ P ∈ S, HasArchive m cwd t P libname := by
  obtain ⟨archive, n, seen, there⟩ := h
  have lib : (t.node (outDir m cwd ++ [n, "lib".toList])).isSome = true :=
    FileTree.isSome_of_below ⟨[libname], by simp⟩ there
  obtain ⟨P, hP, rfl⟩ := builds.only n seen lib
  refine ⟨P, hP, archive, ?_⟩
  rw [at_apple (apple P hP) hQ]
  have no := builds.archives P hP libname archive
  rcases t.node_cases (at_ m Q cwd P.slice ["lib".toList, libname]) with absent | dir | file
  · rw [show outDir m cwd ++ [entry Q P.slice, "lib".toList, libname]
      = at_ m Q cwd P.slice ["lib".toList, libname] from rfl, absent] at there
    cases there
  · rw [dir] at no
    cases no
  · exact file

/-- The listed prefixes that some platform builds. -/
theorem slice_mem_archs (P : Platform) :
    P.slice ∈ archs ↔ P ∈ [Platform.macOSX, Platform.iPhoneOS, Platform.iPhoneSimulator] := by
  cases P <;> decide

/-- **Which slices reach the universal libraries.** -/
theorem slices_kept_iff {e₀ e : Env Var} {v : Exported} (hQ : Q.isApple = true)
    (sourced : Q.source m e₀ = .ok e) (hv : exported e = some v) (darwin : m.uname_s = "Darwin")
    (bare : Bare m.rootdir.toList) (joins : Joins tools arch) (apple : ∀ P ∈ S, P.isApple = true)
    (builds : Builds m Q cwd arch S t) :
    KeepsSlices m cwd S v t (makeUniversal tools cwd v ⟨t, []⟩) ↔
      ∀ P ∈ S, ∀ libname, HasArchive m cwd t P libname →
        fields libname = [libname] ∧ P.slice ∈ archs := by
  have usable : Q.usableOn m := by
    cases Q <;> first | exact darwin | cases hQ
  obtain rfl : Q.exported m = v :=
    Option.some.inj ((exported_of_source usable sourced).symm.trans hv)
  constructor
  · intro kept P hP libname has
    obtain ⟨c, hc, output, -, inputs⟩ := kept libname ⟨P, hP, has⟩
    obtain ⟨word, made⟩ := callFor_of_output builds.toOutTree bare hc output
    have word : fields libname = [libname] := by
      obtain ⟨plain, proper⟩ := bare_of_libWord builds.plain word
      exact fields_of_word proper.1 fun c hc => (plain c hc).1
    refine ⟨word, ?_⟩
    have input := (inputs _).mpr ⟨P, hP, has, rfl⟩
    rw [made.inputs, List.mem_map] at input
    obtain ⟨a, ha, same⟩ := input
    have listed : a ∈ archs := (List.mem_filter.mp ha).1
    rw [builtLib_eq (apple P hP) hQ] at same
    rwa [← libIn_inj same]
  · intro good libname built
    have covered : ∀ w, LibWord m cwd t w →
        ∃ a ∈ archs, t.isFile (at_ m Q cwd a ["lib".toList, w]) = true := by
      rintro w ⟨k, archived, hw⟩
      obtain ⟨P, hP, has⟩ := hasArchive_of_archived builds apple hQ archived
      obtain ⟨one, listed⟩ := good P hP k has
      rw [one, List.mem_singleton] at hw
      refine ⟨P.slice, listed, ?_⟩
      rw [hw, ← at_apple (apple P hP) hQ]
      exact has.2
    obtain ⟨P, hP, has⟩ := built
    have word := libWord_of_hasArchive has (good P hP libname has).1
    have any : AnyLib m cwd t := by
      obtain ⟨k, ⟨-, n, seen, there⟩, -⟩ := word
      exact ⟨n, seen, FileTree.isSome_of_below ⟨[k], by simp⟩ there⟩
    obtain ⟨c, hc, made⟩ :=
      makeUniversal_reaches builds.toOutTree bare joins darwin any covered libname word
    refine ⟨c, hc, made.output, ?_, fun input => ?_⟩
    · rw [made.inputs]
      refine List.Nodup.map_on ?_ (List.Nodup.filter _ (by decide))
      exact fun a _ b _ same => libIn_inj same
    · rw [made.inputs, List.mem_map]
      constructor
      · rintro ⟨a, ha, rfl⟩
        obtain ⟨listed, file⟩ := List.mem_filter.mp ha
        obtain ⟨P, hP, rfl⟩ := builds.prefixes a listed (isDir_of_holds (by simp) file)
        refine ⟨P, hP, ⟨has.1, ?_⟩, (builtLib_eq (apple P hP) hQ).symm⟩
        rwa [at_apple (apple P hP) hQ]
      · rintro ⟨P, hP, has, rfl⟩
        refine ⟨P.slice, List.mem_filter.mpr ⟨(good P hP libname has).2, ?_⟩,
          (builtLib_eq (apple P hP) hQ).symm⟩
        rw [← at_apple (apple P hP) hQ]
        exact has.2

end Slices

/-! ### One platform, one library -/

theorem built_builds (P : Platform) : Builds buildBox P [] id [P] (built P) where
  toOutTree := built_outTree P
  libs Q hQ := by
    rw [List.mem_singleton.mp hQ]
    cases P <;> decide
  only n _ there := by
    rw [outDir_buildBox] at there
    exact ⟨P, List.mem_singleton_self P, (built_below there).1⟩
  prefixes a _ dir :=
    ⟨P, List.mem_singleton_self P, (built_at (by rw [FileTree.isDir_iff.mp dir]; rfl)).1.symm⟩
  archives Q hQ k _ := by
    rw [List.mem_singleton.mp hQ, Bool.eq_false_iff]
    intro dir
    obtain ⟨-, h | h | h⟩ := built_at (by rw [FileTree.isDir_iff.mp dir]; rfl)
    · cases h
    · cases h
    · rw [h] at dir
      revert dir
      cases P <;> decide

/-- A platform in the list keeps its slices. -/
theorem slices_kept_iPhoneOS : ∃ e v, Platform.source buildBox .iPhoneOS buildShell = .ok e ∧
    exported e = some v ∧
    KeepsSlices buildBox [] [.iPhoneOS] v (built .iPhoneOS)
      (makeUniversal sliceTools [] v ⟨built .iPhoneOS, []⟩) := by
  have usable : Platform.usableOn buildBox .iPhoneOS := rfl
  obtain ⟨e, sourced⟩ := buildShell_completes (P := .iPhoneOS) rfl
  have hv := exported_of_source usable sourced
  refine ⟨e, _, sourced, hv, (slices_kept_iff rfl sourced hv rfl (by decide) sliceTools_joins
    (by simp [Platform.isApple]) (built_builds .iPhoneOS)).mpr ?_⟩
  rintro P hP libname ⟨archive, file⟩
  obtain rfl := List.mem_singleton.mp hP
  refine ⟨?_, (slice_mem_archs _).mpr (by simp)⟩
  obtain ⟨c, hc⟩ := FileTree.isFile_iff.mp file
  obtain rfl : libname = "libz.a".toList := by
    obtain ⟨-, h | h | h⟩ := built_at (by rw [hc]; rfl)
    · cases h
    · cases h
    · exact (List.cons.inj (List.cons.inj h).2).1
  decide

end Universal

end MapnikPackaging
