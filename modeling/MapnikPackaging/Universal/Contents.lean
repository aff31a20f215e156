/-
What `make_universal.sh` leaves in the universal prefix.

The prefixes are laid over each other in the order of `ARCHS`, each copy is followed by `sed` over
all configuration files, and `lipo` replaces the libraries that `LIBS` names. `IsUniversal` says
this of two trees, without the script; `universal_of_run` says that a run to the end leaves exactly
such a tree, and `makeUniversal_again` that a second run changes nothing.

* `unchanged_elsewhere` — wherever it stops, nothing outside the universal prefix has changed.
* `layers_fixed` — the last listed prefix that has a file decides what is copied.
* `isUniversal_again` — the tree is a universal prefix of itself.
-/

import MapnikPackaging.Universal.Completion

namespace MapnikPackaging

open Files Shell Var

namespace Universal

variable {α : Type}

/-- The file after all copies. -/
def copied (tools : Tools α) (m : Machine) (P : Platform) (cwd : Path) (t : FileTree α) (r : Path) :
    Option α :=
  archs.foldl (layer tools m P cwd t r) (t.content (at_ m P cwd "universal" r))

/-- What `lipo` makes of a library. -/
def joined (tools : Tools α) (m : Machine) (P : Platform) (cwd : Path) (t : FileTree α) (w : Name) :
    Option α :=
  ((holding m P cwd t w).mapM fun a => t.content (at_ m P cwd a ["lib".toList, w])).bind tools.lipo

/-- **The universal prefix of `t`**, in the tree `u`. -/
structure IsUniversal (tools : Tools α) (m : Machine) (P : Platform) (cwd : Path)
    (t u : FileTree α) : Prop where
  elsewhere : FileTree.AgreeOff (at_ m P cwd "universal" []) t u
  root : u.isDir (at_ m P cwd "universal" []) = true
  dirs : ∀ r ≠ [], u.isDir (at_ m P cwd "universal" r)
    = (t.isDir (at_ m P cwd "universal" r) || archs.any fun a => t.isDir (at_ m P cwd a r))
  libs : ∀ w, LibWord m cwd t w →
    u.content (at_ m P cwd "universal" ["lib".toList, w]) = joined tools m P cwd t w
  files : ∀ r ≠ [], (∀ w, LibWord m cwd t w → r ≠ ["lib".toList, w]) →
    u.content (at_ m P cwd "universal" r) = copied tools m P cwd t r

section Contents

variable {m : Machine} {P : Platform} {cwd : Path} {arch : α → String} {tools : Tools α}
  {t u u' : FileTree α} {s s' : Progress α} {w : Name} {r : Path} {as : List String}
  {c c' : Option α}

/-! ### The copies -/

/-- Nothing comes from nowhere. -/
theorem layers_none (absent : ∀ a ∈ as, t.content (at_ m P cwd a r) = none) :
    as.foldl (layer tools m P cwd t r) none = none := by
  induction as with
  | nil => rfl
  | cons a as ih =>
    have here : layer tools m P cwd t r none a = none := by
      rw [layer, absent a (by simp)]
      split <;> rfl
    rw [List.foldl_cons, here, ih fun b hb => absent b (List.mem_cons_of_mem a hb)]

/-- **The listed prefixes decide** what is copied, once one of them has the file. -/
theorem layers_fixed (there : ∃ a ∈ as, t.isFile (at_ m P cwd a r) = true) (nonempty : r ≠ []) :
    as.foldl (layer tools m P cwd t r) c = as.foldl (layer tools m P cwd t r) c' := by
  induction as generalizing c c' with
  | nil =>
    obtain ⟨a, ha, -⟩ := there
    cases ha
  | cons a as ih =>
    rw [List.foldl_cons, List.foldl_cons]
    by_cases here : t.isFile (at_ m P cwd a r) = true
    · have dir := isDir_of_holds nonempty here
      obtain ⟨x, hx⟩ := Option.isSome_iff_exists.mp here
      have decided : layer tools m P cwd t r c a = layer tools m P cwd t r c' a := by
        rw [layer, layer, if_pos dir, if_pos dir, hx, Option.some_or, Option.some_or]
      rw [decided]
    · obtain ⟨b, hb, file⟩ := there
      rcases List.mem_cons.mp hb with rfl | hb
      · exact absurd file here
      · exact ih ⟨b, hb, file⟩

/-- A copy sees the listed prefixes only. -/
theorem layers_congr (frame : FileTree.AgreeOff (at_ m P cwd "universal" []) t u)
    (listed : ∀ a ∈ as, a ∈ archs) :
    as.foldl (layer tools m P cwd u r) c = as.foldl (layer tools m P cwd t r) c := by
  apply List.foldl_ext _ _ _
  intro c a ha
  have apart : ∀ r, ¬ at_ m P cwd "universal" [] <+: at_ m P cwd a r := fun r =>
    at_apart (archs_not_universal a (listed a ha)).symm [] r
  rw [layer, layer, frame.isDir (apart []), frame.content (apart r)]

/-! ### The libraries -/

theorem mapM_congr {β γ : Type} {f g : β → Option γ} {xs : List β} (same : ∀ x ∈ xs, f x = g x) :
    xs.mapM f = xs.mapM g := by
  induction xs with
  | nil => rfl
  | cons x xs ih =>
    rw [List.mapM_cons, List.mapM_cons, same x (by simp),
      ih fun y hy => same y (List.mem_cons_of_mem x hy)]

theorem joined_congr (frame : FileTree.AgreeOff (at_ m P cwd "universal" []) t u) (w : Name) :
    joined tools m P cwd u w = joined tools m P cwd t w := by
  rw [joined, joined, holding_congr frame]
  refine congrArg (·.bind tools.lipo) (mapM_congr fun a ha => ?_)
  have listed : a ∈ archs := (List.mem_filter.mp ha).1
  exact frame.content (at_apart (archs_not_universal a listed).symm [] _)

/-- What a call that goes through has read. -/
theorem joined_eq {contents : List α} {x : α} {c : LipoCall α} (name : Single w)
    (frame : FileTree.AgreeOff (at_ m P cwd "universal" []) t u) (made : CallFor m P cwd t w c)
    (read : (c.inputs.mapM fun input => u.content (resolve cwd input)) = some contents)
    (joint : tools.lipo contents = some x) : joined tools m P cwd t w = some x := by
  rw [← joined_congr frame w, joined, holding_congr frame]
  rw [made.inputs, List.mapM_map] at read
  have paths : ((holding m P cwd t w).mapM fun a => u.content (at_ m P cwd a ["lib".toList, w]))
      = some contents := by
    rw [← read]
    apply mapM_congr
    intro a ha
    have listed : a ∈ archs := (List.mem_filter.mp ha).1
    rw [Function.comp_apply, resolve_libIn (archs_flat a listed) name]
  rw [paths, Option.bind_some, joint]

/-- What the second loop does to the universal prefix. -/
structure Joined (tools : Tools α) (m : Machine) (P : Platform) (cwd : Path) (t : FileTree α)
    (words : List Name) (s s' : Progress α) : Prop where
  elsewhere : FileTree.AgreeOff (at_ m P cwd "universal" []) t s'.tree
  dirs : ∀ q, s'.tree.isDir q = s.tree.isDir q
  libs : ∀ w ∈ words,
    s'.tree.content (at_ m P cwd "universal" ["lib".toList, w]) = joined tools m P cwd t w
  files : ∀ r, (∀ w ∈ words, r ≠ ["lib".toList, w]) →
    s'.tree.content (at_ m P cwd "universal" r) = s.tree.content (at_ m P cwd "universal" r)

/-- **The second loop**, wherever it stops, has only written to the universal prefix. -/
theorem mergeLibs_joins {words : List Name} (bare : Bare m.rootdir.toList)
    (hw : ∀ w ∈ words, Bare w ∧ Single w)
    (frame : FileTree.AgreeOff (at_ m P cwd "universal" []) t s.tree) :
    Ends (Joined tools m P cwd t words s)
      (fun s' => FileTree.AgreeOff (at_ m P cwd "universal" []) t s'.tree)
      (words.foldlM (fun s libname => mergeLib tools cwd (P.exported m) libname s) s) := by
  -- a library is joined or still to come
  let I : List Name → Progress α → Prop := fun rest s' =>
    FileTree.AgreeOff (at_ m P cwd "universal" []) t s'.tree ∧
      (∀ q, s'.tree.isDir q = s.tree.isDir q) ∧
      (∀ w ∈ words, w ∈ rest ∨
        s'.tree.content (at_ m P cwd "universal" ["lib".toList, w]) = joined tools m P cwd t w) ∧
      ∀ r, (∀ w ∈ words, r ≠ ["lib".toList, w]) →
        s'.tree.content (at_ m P cwd "universal" r) = s.tree.content (at_ m P cwd "universal" r)
  have start : I words s := ⟨frame, fun _ => rfl, fun _ hw => .inl hw, fun _ _ => rfl⟩
  refine (ends_foldlM_rest start ?_).mono ?_ fun _ stopped => stopped
  · rintro w rest s' hmem ⟨frame, dirs, libs, files⟩
    refine (mergeLib_ends bare (hw w hmem).1 (hw w hmem).2 frame).mono ?_ ?_
    · rintro s'' ⟨c, made, -, -, contents, x, read, joint, written⟩
      have other : ∀ r ≠ ["lib".toList, w], s''.tree.content (at_ m P cwd "universal" r)
          = s'.tree.content (at_ m P cwd "universal" r) := by
        intro r differ
        rw [FileTree.content, FileTree.content, FileTree.write_other written]
        intro same
        rw [at_eq_append _ r, at_eq_append _ ["lib".toList, w]] at same
        exact differ (List.append_cancel_left same)
      have here : s''.tree.content (at_ m P cwd "universal" ["lib".toList, w])
          = joined tools m P cwd t w := by
        rw [FileTree.write_content written, joined_eq (hw w hmem).2 frame made read joint]
      refine ⟨write_frame frame written, fun q => ?_, fun w' hw' => ?_, fun r differ => ?_⟩
      · rw [FileTree.write_isDir written, dirs q]
      · by_cases same : w' = w
        · exact .inr (same ▸ here)
        · rcases libs w' hw' with more | done
          · exact .inl ((List.mem_cons.mp more).resolve_left same)
          · refine .inr ?_
            rw [other _ fun eq => same (List.cons.inj (List.cons.inj eq).2).1, done]
      · rw [other r (differ w hmem), files r differ]
    · rintro s'' ⟨-, -, -, same, -⟩
      rwa [same]
  · rintro s' ⟨frame, dirs, libs, files⟩
    refine ⟨frame, dirs, fun w hw => ?_, files⟩
    rcases libs w hw with none | done
    · cases none
    · exact done

/-! ### A run -/

/-- **Nothing else changes**, wherever the script stops. -/
theorem makeUniversal_frame (out : t.isDir (outDir m cwd) = true)
    (free : t.isFile (at_ m P cwd "universal" []) = false)
    (plain : ∀ k, Archived m cwd t k → Plain k) (bare : Bare m.rootdir.toList) :
    FileTree.AgreeOff (at_ m P cwd "universal" []) t
      (left (makeUniversal tools cwd (P.exported m) ⟨t, []⟩)).tree := by
  let J : Progress α → Prop := fun s => FileTree.AgreeOff (at_ m P cwd "universal" []) t s.tree
  obtain ⟨u, root, same, run⟩ := makeUniversal_eq (P := P) tools out free
  have first : FileTree.AgreeOff (at_ m P cwd "universal" []) t u := agreeOff_of_same same
  have ends : Ends J J (makeUniversal tools cwd (P.exported m) ⟨t, []⟩) := by
    rw [run]
    split
    · by_cases any : AnyLib m cwd u
      · obtain ⟨text, collected, words⟩ := libs_some (P := P) bare any
        simp only [collected]
        have good : ∀ w ∈ fields text, Bare w ∧ Single w := fun w hw =>
          bare_of_libWord plain ((libWord_congr same).mp ((words w).mp hw))
        refine ((mergePrefixes_ends bare root).mono (fun _ h => h)
          fun _ stopped => first.trans stopped.2.1).bind fun s₁ copied => ?_
        rw [unquoted_fields fun w hw => (good w hw).1]
        have frame := first.trans copied.elsewhere
        refine ((mergeLibs_joins bare good frame).mono (fun _ h => h.elsewhere)
          fun _ h => h).bind fun s₂ frame => ?_
        refine (mergeMapnik_ends bare frame).mono ?_ ?_
        · rintro s (⟨-, rfl⟩ | ⟨-, -, contents, x, -, -, written⟩)
          · exact frame
          · exact frame.trans ((FileTree.write_agreeOff written).above
              ⟨_, (at_eq_append _ _).symm⟩)
        · rintro s ⟨-, -, same⟩
          show FileTree.AgreeOff _ t s.tree
          rwa [same]
      · rw [libs_none bare any]
        exact first
    · exact first
  exact ends.left

/-- **What a run to the end leaves.** -/
theorem makeUniversal_contents (tree : OutTree m P cwd arch t) (bare : Bare m.rootdir.toList)
    (darwin : m.uname_s = "Darwin") : Ends (fun s => IsUniversal tools m P cwd t s.tree)
      (fun _ => True) (makeUniversal tools cwd (P.exported m) ⟨t, []⟩) := by
  obtain ⟨u, root, same, run⟩ := makeUniversal_eq (P := P) tools tree.out tree.universal
  have first : FileTree.AgreeOff (at_ m P cwd "universal" []) t u := agreeOff_of_same same
  rw [run, if_pos darwin]
  by_cases any : AnyLib m cwd u
  · obtain ⟨text, collected, words⟩ := libs_some (P := P) bare any
    have words : ∀ w, w ∈ fields text ↔ LibWord m cwd t w := fun w =>
      (words w).trans (libWord_congr same)
    simp only [collected]
    have good : ∀ w ∈ fields text, Bare w ∧ Single w := fun w hw =>
      bare_of_libWord tree.plain ((words w).mp hw)
    refine ((mergePrefixes_ends bare root).mono (fun _ h => h) fun _ _ => trivial).bind
      fun s₁ copies => ?_
    rw [unquoted_fields fun w hw => (good w hw).1]
    have frame := first.trans copies.elsewhere
    refine ((mergeLibs_joins bare good frame).mono (fun _ h => h) fun _ _ => trivial).bind
      fun s₂ joins => ?_
    refine (mapnik_absent tree bare joins.elsewhere).mono ?_ fun _ _ => trivial
    rintro s₃ ⟨-, rfl⟩
    -- below its root the universal prefix of `u` is that of `t`
    have below : ∀ a : String, ∀ r ≠ [], u.node (at_ m P cwd a r) = t.node (at_ m P cwd a r) :=
      fun a r hr => same _ (not_universal _ r hr)
    have dirs : ∀ a : String, ∀ r ≠ [], u.isDir (at_ m P cwd a r) = t.isDir (at_ m P cwd a r) :=
      fun a r hr => by rw [FileTree.isDir, FileTree.isDir, below a r hr]
    refine ⟨joins.elsewhere, by rw [joins.dirs, copies.root], fun r hr => ?_, fun w hw => ?_,
      fun r hr other => ?_⟩
    · rw [joins.dirs, copies.dirs r hr]
      simp only [fun a => dirs a r hr]
    · exact joins.libs w ((words w).mpr hw)
    · rw [joins.files r fun w hw => other w ((words w).mp hw), copies.contents r hr, copied,
        layers_congr first fun _ h => h]
      rw [FileTree.content, FileTree.content, below _ r hr]
  · rw [libs_none bare any]
    trivial

/-! ### A second run -/

/-- The trees of a first run: there is no universal prefix yet, and each name in `LIBS` is in the
`lib` of a listed prefix. -/
structure Fresh (m : Machine) (P : Platform) (cwd : Path) (t : FileTree α) : Prop where
  absent : t.node (at_ m P cwd "universal" []) = none
  covered : ∀ w, LibWord m cwd t w →
    ∃ a ∈ archs, t.isFile (at_ m P cwd a ["lib".toList, w]) = true

theorem Fresh.node (fresh : Fresh m P cwd t) (r : Path) :
    t.node (at_ m P cwd "universal" r) = none := by
  by_cases empty : r = []
  · rw [empty, fresh.absent]
  · cases there : t.node (at_ m P cwd "universal" r) with
    | none => rfl
    | some x =>
      rw [at_eq_append] at there
      have above := FileTree.isDir_of_append empty (t := t) (by rw [there]; rfl)
      rw [fresh.absent] at above
      cases above

/-- A directory of the universal prefix is one of a listed prefix, -/
theorem IsUniversal.isDir_iff (made : IsUniversal tools m P cwd t u) (fresh : Fresh m P cwd t)
    (nonempty : r ≠ []) : u.isDir (at_ m P cwd "universal" r) = true ↔
      ∃ a ∈ archs, t.isDir (at_ m P cwd a r) = true := by
  have before : t.isDir (at_ m P cwd "universal" r) = false := by
    rw [FileTree.isDir, fresh.node]
    rfl
  rw [made.dirs r nonempty, before, Bool.false_or, List.any_eq_true]

/-- and so is a file. -/
theorem IsUniversal.isFile (made : IsUniversal tools m P cwd t u) (fresh : Fresh m P cwd t)
    (nonempty : r ≠ []) (h : u.isFile (at_ m P cwd "universal" r) = true) :
    ∃ a ∈ archs, t.isFile (at_ m P cwd a r) = true := by
  by_cases lib : ∃ w, LibWord m cwd t w ∧ r = ["lib".toList, w]
  · obtain ⟨w, word, rfl⟩ := lib
    exact fresh.covered w word
  · have other : ∀ w, LibWord m cwd t w → r ≠ ["lib".toList, w] := fun w word same =>
      lib ⟨w, word, same⟩
    have before : t.content (at_ m P cwd "universal" r) = none := by
      rw [FileTree.content, fresh.node]
      rfl
    by_contra none
    have absent : ∀ a ∈ archs, t.content (at_ m P cwd a r) = Option.none := by
      intro a ha
      rw [← Option.not_isSome_iff_eq_none]
      exact fun there => none ⟨a, ha, there⟩
    rw [FileTree.isFile, made.files r nonempty other, copied, before, layers_none absent] at h
    cases h

theorem visible_entry (P : Platform) (a : String) : visible (entry P a) = true := by
  cases P <;> rfl

/-- What stands outside the universal prefix is as it was. -/
theorem node_elsewhere (made : IsUniversal tools m P cwd t u) {n : Name} (r : Path)
    (other : n ≠ entry P "universal") :
    u.node (outDir m cwd ++ n :: r) = t.node (outDir m cwd ++ n :: r) := by
  apply made.elsewhere _
  rw [at_, List.prefix_append_right_inj, List.cons_prefix_cons]
  exact fun h => other h.1.symm

/-- The universal prefix adds no name to `LIBS`. -/
theorem IsUniversal.archived (made : IsUniversal tools m P cwd t u) (fresh : Fresh m P cwd t)
    (k : Name) : Archived m cwd u k ↔ Archived m cwd t k := by
  refine and_congr_right fun _ => ⟨?_, ?_⟩
  · rintro ⟨n, seen, there⟩
    by_cases own : n = entry P "universal"
    · have nonempty : ["lib".toList, k] ≠ [] := by simp
      have listed : ∃ a ∈ archs, (t.node (at_ m P cwd a ["lib".toList, k])).isSome = true := by
        rcases u.node_cases (at_ m P cwd "universal" ["lib".toList, k]) with absent | dir | file
        · rw [own] at there
          have : (u.node (at_ m P cwd "universal" ["lib".toList, k])).isSome = true := there
          rw [absent] at this
          cases this
        · obtain ⟨a, ha, dir⟩ := (made.isDir_iff fresh nonempty).mp dir
          exact ⟨a, ha, by rw [FileTree.isDir_iff.mp dir]; rfl⟩
        · obtain ⟨a, ha, file⟩ := made.isFile fresh nonempty file
          obtain ⟨x, hx⟩ := FileTree.isFile_iff.mp file
          exact ⟨a, ha, by rw [hx]; rfl⟩
      obtain ⟨a, -, there⟩ := listed
      exact ⟨entry P a, visible_entry P a, there⟩
    · exact ⟨n, seen, by rwa [node_elsewhere made _ own] at there⟩
  · rintro ⟨n, seen, there⟩
    by_cases own : n = entry P "universal"
    · rw [own] at there
      have : (t.node (at_ m P cwd "universal" ["lib".toList, k])).isSome = true := there
      rw [fresh.node] at this
      cases this
    · exact ⟨n, seen, by rwa [node_elsewhere made _ own]⟩

theorem IsUniversal.libWord (made : IsUniversal tools m P cwd t u) (fresh : Fresh m P cwd t)
    (w : Name) : LibWord m cwd u w ↔ LibWord m cwd t w :=
  exists_congr fun k => and_congr_left fun _ => made.archived fresh k

/-- **A universal prefix is that of its own tree.** -/
theorem isUniversal_again (made : IsUniversal tools m P cwd t u) (fresh : Fresh m P cwd t)
    (again : IsUniversal tools m P cwd u u') : ∀ q, u'.node q = u.node q := by
  have frame := made.elsewhere
  intro q
  by_cases inside : at_ m P cwd "universal" [] <+: q
  · obtain ⟨r, rfl⟩ := inside
    by_cases empty : r = []
    · rw [empty, List.append_nil, FileTree.isDir_iff.mp made.root, FileTree.isDir_iff.mp again.root]
    · rw [← at_eq_append]
      refine FileTree.node_eq_of ?_ ?_
      · have listed : (archs.any fun a => u.isDir (at_ m P cwd a r))
            = archs.any fun a => t.isDir (at_ m P cwd a r) := by
          rw [Bool.eq_iff_iff, List.any_eq_true, List.any_eq_true]
          refine exists_congr fun a => and_congr_right fun ha => ?_
          rw [frame.isDir (at_apart (archs_not_universal a ha).symm [] r)]
        rw [again.dirs r empty, listed, made.dirs r empty, Bool.or_assoc, Bool.or_self]
      · by_cases lib : ∃ w, LibWord m cwd t w ∧ r = ["lib".toList, w]
        · obtain ⟨w, word, rfl⟩ := lib
          rw [again.libs w ((made.libWord fresh w).mpr word), made.libs w word, joined_congr frame]
        · have other : ∀ w, LibWord m cwd t w → r ≠ ["lib".toList, w] := fun w word same =>
            lib ⟨w, word, same⟩
          rw [again.files r empty fun w word => other w ((made.libWord fresh w).mp word), copied,
            layers_congr frame fun _ h => h, made.files r empty other, copied]
          by_cases there : ∃ a ∈ archs, t.isFile (at_ m P cwd a r) = true
          · exact layers_fixed there empty
          · have absent : ∀ a ∈ archs, t.content (at_ m P cwd a r) = none := by
              intro a ha
              rw [← Option.not_isSome_iff_eq_none]
              exact fun file => there ⟨a, ha, file⟩
            have before : t.content (at_ m P cwd "universal" r) = none := by
              rw [FileTree.content, fresh.node]
              rfl
            rw [before, layers_none absent, layers_none absent]
  · exact again.elsewhere q inside

theorem outDir_outside : ¬ at_ m P cwd "universal" [] <+: outDir m cwd := by
  intro le
  have := le.length_le
  simp only [at_, List.length_append, List.length_singleton] at this
  omega

/-- The tree with its universal prefix is still one that the scripts leave. -/
theorem IsUniversal.outTree (made : IsUniversal tools m P cwd t u) (fresh : Fresh m P cwd t)
    (tree : OutTree m P cwd arch t) : OutTree m P cwd arch u where
  out := by rw [made.elsewhere.isDir outDir_outside, tree.out]
  universal := by
    rw [Bool.eq_false_iff]
    exact fun file => FileTree.not_isDir_of_isFile file (FileTree.isDir_iff.mp made.root)
  platforms a ha dir := by
    rw [made.elsewhere.isDir (at_apart (archs_not_universal a ha).symm [] _)] at dir
    exact tree.platforms a ha dir
  mapniks a ha dir := by
    have apart : ∀ a ∈ mapnikArchs, "universal" ≠ a ++ "-mapnik" := by decide
    rw [made.elsewhere.isDir (at_apart (apart a ha) [] _)] at dir
    exact tree.mapniks a ha dir
  sliced Q n x word h := by
    have apart : "universal" ≠ Q.slice := by cases Q <;> decide
    rw [made.elsewhere.content (at_apart apart [] _)] at h
    exact tree.sliced Q n x ((made.libWord fresh n).mp word) h
  consistent a ha b hb := by
    have apart : ∀ a ∈ archs, ∀ r, ¬ at_ m P cwd "universal" [] <+: at_ m P cwd a r :=
      fun a ha r => at_apart (archs_not_universal a ha).symm [] r
    rintro ⟨r, hr, clashes⟩
    rcases List.mem_cons.mp hb with rfl | hb
    · -- a file or a directory there is one of a listed prefix
      rw [FileTree.clash_node, made.elsewhere.isDir (apart a ha r),
        made.elsewhere.isFile (apart a ha r), Bool.or_eq_true, Bool.and_eq_true,
        Bool.and_eq_true] at clashes
      rcases clashes with ⟨dir, file⟩ | ⟨file, dir⟩
      · obtain ⟨b, hb, there⟩ := made.isFile fresh hr file
        refine tree.consistent a ha b (List.mem_cons_of_mem _ hb) ⟨r, hr, ?_⟩
        rw [FileTree.clash_node, dir, there]
        rfl
      · obtain ⟨b, hb, there⟩ := (made.isDir_iff fresh hr).mp dir
        refine tree.consistent a ha b (List.mem_cons_of_mem _ hb) ⟨r, hr, ?_⟩
        rw [FileTree.clash_node, file, there, Bool.true_and, Bool.or_true]
    · rw [made.elsewhere _ (apart a ha r), made.elsewhere _ (apart b hb r)] at clashes
      exact tree.consistent a ha b (List.mem_cons_of_mem _ hb) ⟨r, hr, clashes⟩
  plain k h := tree.plain k ((made.archived fresh k).mp h)

/-- It needs no more than it did. -/
theorem IsUniversal.complete (made : IsUniversal tools m P cwd t u) (fresh : Fresh m P cwd t)
    (complete : Complete m P cwd t) : Complete m P cwd u := by
  intro darwin
  obtain ⟨⟨n, seen, there⟩, covered, absent⟩ := complete darwin
  refine ⟨⟨n, seen, ?_⟩, fun w word => ?_, ?_⟩
  · have own : n ≠ entry P "universal" := by
      rintro rfl
      have : (t.node (at_ m P cwd "universal" ["lib".toList])).isSome = true := there
      rw [fresh.node] at this
      cases this
    rwa [node_elsewhere made _ own]
  · obtain ⟨a, ha, file⟩ := covered w ((made.libWord fresh w).mp word)
    exact ⟨a, ha, by rwa [made.elsewhere.isFile (at_apart (archs_not_universal a ha).symm [] _)]⟩
  · rwa [mapnikLib, made.elsewhere.isFile (at_apart (slice_mapnik_apart P).symm [] _)]

/-- **The rest of the tree is left alone**, wherever the script stops. -/
theorem unchanged_elsewhere {e₀ e : Env Var} {v : Exported} (usable : P.usableOn m)
    (sourced : P.source m e₀ = .ok e) (hv : exported e = some v) (bare : Bare m.rootdir.toList)
    (out : t.isDir (outDir m cwd) = true) (free : t.isFile (at_ m P cwd "universal" []) = false)
    (plain : ∀ k, Archived m cwd t k → Plain k) :
    FileTree.AgreeOff (at_ m P cwd "universal" []) t
      (left (makeUniversal tools cwd v ⟨t, []⟩)).tree := by
  obtain rfl : P.exported m = v :=
    Option.some.inj ((exported_of_source usable sourced).symm.trans hv)
  exact makeUniversal_frame out free plain bare

/-- There is such a run. -/
theorem makeUniversal_ends (tree : OutTree m P cwd arch t) (bare : Bare m.rootdir.toList)
    (joins : Joins tools arch) (complete : Complete m P cwd t) :
    ∃ s, makeUniversal tools cwd (P.exported m) ⟨t, []⟩ = .ok s := by
  obtain ⟨s, ran, -⟩ := (makeUniversal_completes tree bare joins complete).completes
  exact ⟨s, ran⟩

/-- **The universal prefix** is what the listed prefixes make it. -/
theorem universal_of_run {e₀ e : Env Var} {v : Exported} (usable : P.usableOn m)
    (sourced : P.source m e₀ = .ok e) (hv : exported e = some v) (bare : Bare m.rootdir.toList)
    (darwin : m.uname_s = "Darwin") (tree : OutTree m P cwd arch t)
    (ran : makeUniversal tools cwd v ⟨t, []⟩ = .ok s) : IsUniversal tools m P cwd t s.tree := by
  obtain rfl : P.exported m = v :=
    Option.some.inj ((exported_of_source usable sourced).symm.trans hv)
  exact (makeUniversal_contents tree bare darwin).of_ok ran

/-- **Running the script again changes nothing.** -/
theorem makeUniversal_again {e₀ e : Env Var} {v : Exported} (usable : P.usableOn m)
    (sourced : P.source m e₀ = .ok e) (hv : exported e = some v) (bare : Bare m.rootdir.toList)
    (joins : Joins tools arch) (tree : OutTree m P cwd arch t)
    (absent : t.node (at_ m P cwd "universal" []) = none)
    (ran : makeUniversal tools cwd v ⟨t, []⟩ = .ok s) :
    ∃ s', makeUniversal tools cwd v ⟨s.tree, []⟩ = .ok s' ∧
      ∀ q, s'.tree.node q = s.tree.node q := by
  obtain rfl : P.exported m = v :=
    Option.some.inj ((exported_of_source usable sourced).symm.trans hv)
  by_cases darwin : m.uname_s = "Darwin"
  · have complete := (makeUniversal_needs tree bare joins).of_ok ran
    have made := (makeUniversal_contents tree bare darwin).of_ok ran
    have fresh : Fresh m P cwd t := ⟨absent, (complete darwin).2.1⟩
    have tree' := made.outTree fresh tree
    obtain ⟨s', ran', -⟩ :=
      (makeUniversal_completes tree' bare joins (made.complete fresh complete)).completes
    exact ⟨s', ran', isUniversal_again made fresh
      ((makeUniversal_contents tree' bare darwin).of_ok ran')⟩
  · obtain ⟨u, root, only, first⟩ :=
      makeUniversal_eq (P := P) tools tree.out tree.universal
    rw [if_neg darwin] at first
    obtain rfl : ⟨u, []⟩ = s := Except.ok.inj (first.symm.trans ran)
    have frame := agreeOff_of_same only
    have free : u.isFile (at_ m P cwd "universal" []) = false := by
      rw [Bool.eq_false_iff]
      exact fun file => FileTree.not_isDir_of_isFile file (FileTree.isDir_iff.mp root)
    obtain ⟨u', root', same, second⟩ :=
      makeUniversal_eq (P := P) tools (t := u) (by rw [frame.isDir outDir_outside, tree.out]) free
    rw [if_neg darwin] at second
    refine ⟨_, second, fun q => ?_⟩
    by_cases here : q = at_ m P cwd "universal" []
    · rw [here, FileTree.isDir_iff.mp root]
      exact FileTree.isDir_iff.mp root'
    · exact same q here

end Contents

/-! ### One platform, one library -/

theorem iPhoneOS_usable : Platform.usableOn buildBox .iPhoneOS := rfl

/-- A run over the prefix of iPhoneOS. -/
theorem built_runs : ∃ e v s, Platform.source buildBox .iPhoneOS buildShell = .ok e ∧
    exported e = some v ∧ makeUniversal sliceTools [] v ⟨built .iPhoneOS, []⟩ = .ok s := by
  obtain ⟨e, sourced⟩ := buildShell_completes (P := .iPhoneOS) rfl
  obtain ⟨s, ran⟩ := makeUniversal_ends (built_outTree .iPhoneOS) (by decide) sliceTools_joins
    (built_complete (by decide))
  exact ⟨e, _, s, sourced, exported_of_source iPhoneOS_usable sourced, ran⟩

/-- A run over the prefix of iPhoneOS64, which the list lacks. -/
theorem unchanged_iPhoneOS64 : ∃ e v, Platform.source buildBox .iPhoneOS64 buildShell = .ok e ∧
    exported e = some v ∧ FileTree.AgreeOff (at_ buildBox .iPhoneOS64 [] "universal" [])
      (built .iPhoneOS64) (left (makeUniversal sliceTools [] v ⟨built .iPhoneOS64, []⟩)).tree := by
  have usable : Platform.usableOn buildBox .iPhoneOS64 := rfl
  have tree := built_outTree .iPhoneOS64
  obtain ⟨e, sourced⟩ := buildShell_completes (P := .iPhoneOS64) rfl
  have hv := exported_of_source usable sourced
  exact ⟨e, _, sourced, hv, unchanged_elsewhere usable sourced hv (by decide) tree.out
    tree.universal tree.plain⟩

theorem universal_iPhoneOS : ∃ v s, makeUniversal sliceTools [] v ⟨built .iPhoneOS, []⟩ = .ok s ∧
    IsUniversal sliceTools buildBox .iPhoneOS [] (built .iPhoneOS) s.tree := by
  obtain ⟨e, v, s, sourced, hv, ran⟩ := built_runs
  have made := universal_of_run iPhoneOS_usable sourced hv (by decide) (by decide)
    (built_outTree .iPhoneOS) ran
  exact ⟨v, s, ran, made⟩

theorem again_iPhoneOS : ∃ v s s', makeUniversal sliceTools [] v ⟨built .iPhoneOS, []⟩ = .ok s ∧
    makeUniversal sliceTools [] v ⟨s.tree, []⟩ = .ok s' ∧ ∀ q, s'.tree.node q = s.tree.node q := by
  obtain ⟨e, v, s, sourced, hv, ran⟩ := built_runs
  have absent : (built .iPhoneOS).node (at_ buildBox .iPhoneOS [] "universal" []) = none := by
    rw [← Option.not_isSome_iff_eq_none]
    exact fun there => absurd (built_at there).1 (by decide)
  obtain ⟨s', ran', same⟩ := makeUniversal_again iPhoneOS_usable sourced hv (by decide)
    sliceTools_joins (built_outTree .iPhoneOS) absent ran
  exact ⟨v, s, s', ran, ran', same⟩

end Universal

end MapnikPackaging
