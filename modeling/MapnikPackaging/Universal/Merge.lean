/-
What the parts of `make_universal.sh` do.

Each part has one lemma that says how it ends: what holds where it goes on, and what holds where
it stops the script. All of them see the listed prefixes as they were at the start, since whatever
is written lies in the universal prefix.

* `mergePrefix_ends`, `mergePrefixes_ends` — the copies, which fail where a directory meets a file.
* `libs_none`, `libs_some` — the names in `LIBS`.
* `mergeLib_ends`, `mergeLibs_calls` — the calls of `lipo` and their inputs.
* `mergeLibs_completes`, `mergeLibs_needs` — when the second loop reaches every name.
-/

import MapnikPackaging.Universal.Script

namespace MapnikPackaging

open Files Shell Var

namespace Universal

variable {α : Type} (m : Machine) (P : Platform) (cwd : Path)

/-! ### The copies -/

theorem onTree_ends (f : FileTree α → Option (FileTree α)) (s : Progress α) :
    Ends (fun s' => ∃ t, f s.tree = some t ∧ s' = { s with tree := t })
      (fun s' => s' = s ∧ f s.tree = none) (onTree f s) := by
  unfold onTree
  cases f s.tree with
  | none => exact ⟨rfl, rfl⟩
  | some t => exact ⟨t, rfl, rfl⟩

/-- A file of the universal prefix, after `sed` where it is a configuration file. -/
def rewritten (tools : Tools α) (m : Machine) (P : Platform) (arch : String) (r : Path)
    (a : α) : α :=
  if r.getLast?.any isConfig then tools.sed (rewriteProgram (P.exported m).build_root arch) a else a

/-- What one copy leaves of a file that was `c`. -/
def layer (tools : Tools α) (m : Machine) (P : Platform) (cwd : Path) (t : FileTree α) (r : Path)
    (c : Option α) (arch : String) : Option α :=
  if t.isDir (at_ m P cwd arch []) then
    ((t.content (at_ m P cwd arch r)).or c).map (rewritten tools m P arch r)
  else c

/-- What one copy does to the universal prefix. -/
structure Merged (tools : Tools α) (m : Machine) (P : Platform) (cwd : Path) (arch : String)
    (s s' : Progress α) : Prop where
  calls : s'.calls = s.calls
  elsewhere : FileTree.AgreeOff (at_ m P cwd "universal" []) s.tree s'.tree
  root : s'.tree.isDir (at_ m P cwd "universal" []) = true
  dirs : ∀ r ≠ [], s'.tree.isDir (at_ m P cwd "universal" r)
    = (s.tree.isDir (at_ m P cwd "universal" r) || s.tree.isDir (at_ m P cwd arch r))
  files : ∀ r ≠ [], s'.tree.isFile (at_ m P cwd "universal" r)
    = (s.tree.isFile (at_ m P cwd "universal" r) || s.tree.isFile (at_ m P cwd arch r))
  contents : ∀ r ≠ [], s'.tree.content (at_ m P cwd "universal" r)
    = layer tools m P cwd s.tree r (s.tree.content (at_ m P cwd "universal" r)) arch

/-- A directory in the one prefix where the other has a file. -/
def Clashes (m : Machine) (P : Platform) (cwd : Path) (t : FileTree α) (a b : String) : Prop :=
  ∃ r ≠ [], FileTree.clash (t.node (at_ m P cwd a r)) (t.node (at_ m P cwd b r)) = true

/-- What all of them do. -/
structure Copied (tools : Tools α) (m : Machine) (P : Platform) (cwd : Path) (s s' : Progress α) :
    Prop where
  calls : s'.calls = s.calls
  elsewhere : FileTree.AgreeOff (at_ m P cwd "universal" []) s.tree s'.tree
  root : s'.tree.isDir (at_ m P cwd "universal" []) = true
  dirs : ∀ r ≠ [], s'.tree.isDir (at_ m P cwd "universal" r)
    = (s.tree.isDir (at_ m P cwd "universal" r) ||
      archs.any fun a => s.tree.isDir (at_ m P cwd a r))
  files : ∀ r ≠ [], s'.tree.isFile (at_ m P cwd "universal" r)
    = (s.tree.isFile (at_ m P cwd "universal" r) ||
      archs.any fun a => s.tree.isFile (at_ m P cwd a r))
  contents : ∀ r ≠ [], s'.tree.content (at_ m P cwd "universal" r)
    = archs.foldl (layer tools m P cwd s.tree r) (s.tree.content (at_ m P cwd "universal" r))

section Copies

variable {m P cwd} {tools : Tools α} {s : Progress α} {t u : FileTree α} {arch : String}

theorem at_eq_append (a : String) (r : Path) : at_ m P cwd a r = at_ m P cwd a [] ++ r := by
  rw [← at_append, List.nil_append]

theorem rewriteConfigs_some (tools : Tools α) (arch : String) (bare : Bare m.rootdir.toList)
    (there : t.isDir (at_ m P cwd "universal" []) = true) :
    ∃ f, rewriteConfigs tools cwd (P.exported m) arch t = some (t.edit f) ∧
      (∀ q, ¬ at_ m P cwd "universal" [] <+: q → f q = id) ∧
      ∀ r ≠ [], f (at_ m P cwd "universal" r) = rewritten tools m P arch r := by
  have text : (P.exported m).build_root.toList ++ "-universal/".toList
      = prefixDir (P.exported m) "universal" ++ ['/'] := by
    simp [prefixDir]
  have word : Bare (prefixDir (P.exported m) "universal" ++ ['/']) := by
    rw [prefixDir_eq]
    exact (bare_below bare (bare_entry (by decide))).append (by decide)
  rw [rewriteConfigs, text, unquoted_bare (by simp) word, List.map_singleton,
    resolve_prefixDir_slash (by decide)]
  have found : (t.node (at_ m P cwd "universal" [])).isSome = true := by
    rw [FileTree.isDir_iff.mp there]
    rfl
  simp only [List.all_cons, List.all_nil, found, Bool.and_true, if_true]
  refine ⟨_, rfl, fun q off => ?_, fun r nonempty => ?_⟩
  · funext a
    simp [off]
  · have inside : at_ m P cwd "universal" [] <+: at_ m P cwd "universal" r :=
      ⟨r, (at_eq_append _ r).symm⟩
    have last : (at_ m P cwd "universal" r).getLast? = r.getLast? := by
      rw [at_eq_append, List.getLast?_append_of_ne_nil _ nonempty]
    funext a
    simp [inside, last, rewritten]

/-- **One copy**: it fails only where a directory meets a file. -/
theorem mergePrefix_ends (bare : Bare m.rootdir.toList) (listed : arch ∈ archs)
    (root : s.tree.isDir (at_ m P cwd "universal" []) = true) :
    Ends (Merged tools m P cwd arch s) (fun s' => s' = s ∧ Clashes m P cwd s.tree arch "universal")
      (mergePrefix tools cwd (P.exported m) arch s) := by
  have flat := archs_flat arch listed
  have path : ∀ (arch : String) (r : Path), at_ m P cwd arch r = at_ m P cwd arch [] ++ r :=
    at_eq_append
  have kept : ∀ {u}, s.tree.merge (at_ m P cwd arch []) (at_ m P cwd "universal" []) = some u →
      u.isDir (at_ m P cwd "universal" []) = true := by
    intro u merged
    have whole := FileTree.merge_isDir merged []
    rwa [List.append_nil, List.append_nil, root, Bool.or_true] at whole
  unfold mergePrefix
  rw [resolve_prefixDir flat, resolve_prefixDir_slash flat, resolve_prefixDir (by decide)]
  split
  · next dir =>
    refine (onTree_ends _ s).mono ?_ ?_
    · rintro _ ⟨t, ht, rfl⟩
      obtain ⟨u, merged, rewritten⟩ := Option.bind_eq_some_iff.mp ht
      obtain ⟨f, hf, inside, rewrites⟩ := rewriteConfigs_some tools arch bare (kept merged)
      obtain rfl : u.edit f = t := Option.some.inj (hf.symm.trans rewritten)
      refine ⟨rfl, ?_, by rw [FileTree.edit_isDir, kept merged], fun r _ => ?_, fun r _ => ?_,
        fun r hr => ?_⟩
      · exact (FileTree.merge_agreeOff merged).trans (FileTree.edit_agreeOff inside)
      · rw [FileTree.edit_isDir, path _ r, path arch r, FileTree.merge_isDir merged, Bool.or_comm]
      · rw [FileTree.edit_isFile, path _ r, path arch r, FileTree.merge_isFile merged, Bool.or_comm]
      · rw [layer, if_pos dir, FileTree.edit_content, rewrites r hr, path _ r, path arch r,
          FileTree.merge_content merged]
    · rintro s' ⟨same, failed⟩
      refine ⟨same, ?_⟩
      have copied : s.tree.merge (at_ m P cwd arch []) (at_ m P cwd "universal" []) = none := by
        rw [← Option.not_isSome_iff_eq_none, Option.isSome_iff_exists]
        rintro ⟨u, merged⟩
        obtain ⟨f, hf, -, -⟩ := rewriteConfigs_some tools arch bare (kept merged)
        rw [merged, Option.bind_some, hf] at failed
        cases failed
      obtain ⟨r, clashes⟩ := FileTree.clash_of_merge_none dir root copied
      refine ⟨r, ?_, by rwa [path arch r, path _ r]⟩
      rintro rfl
      rw [List.append_nil, List.append_nil, FileTree.isDir_iff.mp dir,
        FileTree.isDir_iff.mp root] at clashes
      cases clashes
  · next absent =>
    have below : ∀ r ≠ [], s.tree.node (at_ m P cwd arch r) = none := by
      intro r nonempty
      cases there : s.tree.node (at_ m P cwd arch r) with
      | none => rfl
      | some x =>
        rw [path] at there
        have above := FileTree.isDir_of_append nonempty (t := s.tree) (by rw [there]; rfl)
        exact absurd (FileTree.isDir_iff.mpr above) absent
    refine ⟨rfl, FileTree.AgreeOff.refl _ _, root, fun r hr => ?_, fun r hr => ?_, fun r _ => ?_⟩
    · simp [FileTree.isDir, below r hr]
    · simp [FileTree.isFile, FileTree.content, below r hr]
    · rw [layer, if_neg absent]

/-- **All copies.** -/
theorem mergePrefixes_ends (bare : Bare m.rootdir.toList)
    (root : s.tree.isDir (at_ m P cwd "universal" []) = true) :
    Ends (Copied tools m P cwd s) (fun s' => s'.calls = s.calls ∧
        FileTree.AgreeOff (at_ m P cwd "universal" []) s.tree s'.tree ∧
        ∃ a ∈ archs, ∃ b ∈ "universal" :: archs, Clashes m P cwd s.tree a b)
      (archs.foldlM (fun s arch => mergePrefix tools cwd (P.exported m) arch s) s) := by
  -- what the rounds that are left will still add
  let I : List String → Progress α → Prop := fun rest s' =>
    s'.calls = s.calls ∧ FileTree.AgreeOff (at_ m P cwd "universal" []) s.tree s'.tree ∧
      s'.tree.isDir (at_ m P cwd "universal" []) = true ∧
      (∀ r ≠ [], (s'.tree.isDir (at_ m P cwd "universal" r) ||
          rest.any fun a => s.tree.isDir (at_ m P cwd a r))
        = (s.tree.isDir (at_ m P cwd "universal" r) ||
          archs.any fun a => s.tree.isDir (at_ m P cwd a r))) ∧
      (∀ r ≠ [], (s'.tree.isFile (at_ m P cwd "universal" r) ||
          rest.any fun a => s.tree.isFile (at_ m P cwd a r))
        = (s.tree.isFile (at_ m P cwd "universal" r) ||
          archs.any fun a => s.tree.isFile (at_ m P cwd a r))) ∧
      ∀ r ≠ [], rest.foldl (layer tools m P cwd s.tree r)
          (s'.tree.content (at_ m P cwd "universal" r))
        = archs.foldl (layer tools m P cwd s.tree r) (s.tree.content (at_ m P cwd "universal" r))
  have start : I archs s :=
    ⟨rfl, FileTree.AgreeOff.refl _ _, root, fun _ _ => rfl, fun _ _ => rfl, fun _ _ => rfl⟩
  have apart : ∀ a ∈ archs, ∀ r, ¬ at_ m P cwd "universal" [] <+: at_ m P cwd a r :=
    fun a ha r => at_apart (archs_not_universal a ha).symm [] r
  refine (ends_foldlM_rest start ?_).mono ?_ fun _ stopped => stopped
  · rintro a rest s' ha ⟨calls, elsewhere, root, dirs, files, contents⟩
    refine (mergePrefix_ends bare ha root).mono ?_ ?_
    · intro s'' step
      refine ⟨step.calls.trans calls, elsewhere.trans step.elsewhere, step.root, ?_, ?_, ?_⟩
      · intro r hr
        have := dirs r hr
        rw [step.dirs r hr, elsewhere.isDir (apart a ha r), Bool.or_assoc]
        simpa only [List.any_cons] using this
      · intro r hr
        have := files r hr
        rw [step.files r hr, elsewhere.isFile (apart a ha r), Bool.or_assoc]
        simpa only [List.any_cons] using this
      · intro r hr
        have same : layer tools m P cwd s'.tree r (s'.tree.content (at_ m P cwd "universal" r)) a
            = layer tools m P cwd s.tree r (s'.tree.content (at_ m P cwd "universal" r)) a := by
          rw [layer, layer, elsewhere.isDir (apart a ha []), elsewhere.content (apart a ha r)]
        rw [step.contents r hr, same, ← contents r hr, List.foldl_cons]
    · rintro s'' ⟨rfl, r, hr, clashes⟩
      refine ⟨calls, elsewhere, a, ha, ?_⟩
      -- what stands in the universal prefix came from it or from a listed one
      have origin : ∀ (f : String → Bool) (now : Bool), now = true →
          (now || (a :: rest).any f) = (f "universal" || archs.any f) →
          ∃ b ∈ "universal" :: archs, f b = true := by
        intro f now hnow total
        rw [hnow, Bool.true_or] at total
        rw [← List.any_eq_true, List.any_cons]
        exact total.symm
      rw [FileTree.clash_node, elsewhere.isDir (apart a ha r), elsewhere.isFile (apart a ha r),
        Bool.or_eq_true, Bool.and_eq_true, Bool.and_eq_true] at clashes
      rcases clashes with ⟨dir, file⟩ | ⟨file, dir⟩
      · obtain ⟨b, hb, there⟩ :=
          origin (fun a => s.tree.isFile (at_ m P cwd a r)) _ file (files r hr)
        exact ⟨b, hb, r, hr, by rw [FileTree.clash_node, dir, there]; rfl⟩
      · obtain ⟨b, hb, there⟩ := origin (fun a => s.tree.isDir (at_ m P cwd a r)) _ dir (dirs r hr)
        exact ⟨b, hb, r, hr, by rw [FileTree.clash_node, file, there, Bool.true_and, Bool.or_true]⟩
  · rintro s' ⟨calls, elsewhere, root, dirs, files, contents⟩
    refine ⟨calls, elsewhere, root, fun r hr => ?_, fun r hr => ?_, contents⟩
    · simpa using dirs r hr
    · simpa using files r hr

end Copies

/-! ### The names in `LIBS` -/

/-- A name `*.a` in the `lib` of something visible under `out/`. -/
def Archived (m : Machine) (cwd : Path) (t : FileTree α) (k : Name) : Prop :=
  isArchive k = true ∧ ∃ n, visible n = true ∧
    (t.node (outDir m cwd ++ [n, "lib".toList, k])).isSome = true

/-- Something under `out/` has a `lib`. -/
def AnyLib (m : Machine) (cwd : Path) (t : FileTree α) : Prop :=
  ∃ n, visible n = true ∧ (t.node (outDir m cwd ++ [n, "lib".toList])).isSome = true

/-- The words of `LIBS`: an archive is named word by word. -/
def LibWord (m : Machine) (cwd : Path) (t : FileTree α) (w : List Char) : Prop :=
  ∃ k, Archived m cwd t k ∧ w ∈ fields k

section Libs

variable {m P cwd} {t u : FileTree α} {w text : List Char}

/-- The operands of `find`. -/
theorem operands_eq (bare : Bare m.rootdir.toList) :
    unquoted t cwd ((P.exported m).rootdir.toList ++ '/' :: "out/*/lib".toList) =
      let found := matching t cwd (m.rootdir.toList ++ '/' :: "out".toList ++ ['/'])
        [['*'], "lib".toList]
      if found = [] then [m.rootdir.toList ++ '/' :: "out/*/lib".toList] else found := by
  have text : m.rootdir.toList ++ '/' :: "out/*/lib".toList
      = (m.rootdir.toList ++ '/' :: "out".toList) ++ '/' :: "*/lib".toList := by simp
  have plain : Plain (m.rootdir.toList ++ '/' :: "out".toList) :=
    (bare.append (by decide)).plain
  have word : fields (m.rootdir.toList ++ '/' :: "out/*/lib".toList)
      = [m.rootdir.toList ++ '/' :: "out/*/lib".toList] := by
    apply fields_of_word (by simp)
    intro c hc
    rcases List.mem_append.mp hc with hc | hc
    · exact (bare c hc).1
    · have solid : ('/' :: "out/*/lib".toList).all (fun c => isBlank c = false) = true := by decide
      exact of_decide_eq_true (List.all_eq_true.mp solid c hc)
  have parts : "*/lib".toList.splitOn '/' = [['*'], "lib".toList] := by decide
  rw [unquoted, show (P.exported m).rootdir = m.rootdir from rfl, word, List.flatMap_singleton,
    text, expand_slash plain (by decide), parts]

theorem resolve_out :
    resolve cwd (m.rootdir.toList ++ '/' :: "out".toList ++ ['/']) = outDir m cwd := by
  have text : m.rootdir.toList ++ '/' :: "out".toList ++ ['/'] = below m [] := by simp [below]
  rw [text, resolve_below, show components [] = [] from rfl, List.append_nil]

theorem mem_found {word : List Char} : word ∈ matching t cwd
      (m.rootdir.toList ++ '/' :: "out".toList ++ ['/']) [['*'], "lib".toList] ↔
    ∃ n, visible n = true ∧ (t.node (outDir m cwd ++ [n, "lib".toList])).isSome = true ∧
      word = m.rootdir.toList ++ '/' :: "out".toList ++ '/' :: n ++ '/' :: "lib".toList := by
  rw [mem_matching_star_slash (by decide) (by decide), resolve_out]

theorem resolve_lib {n : Name} (single : Single n) :
    resolve cwd (m.rootdir.toList ++ '/' :: "out".toList ++ '/' :: n ++ '/' :: "lib".toList)
      = outDir m cwd ++ [n, "lib".toList] := by
  have text : m.rootdir.toList ++ '/' :: "out".toList ++ '/' :: n ++ '/' :: "lib".toList
      = below m (n ++ '/' :: "lib".toList) := by simp [below]
  have lib : components "lib".toList = ["lib".toList] := by decide
  rw [text, resolve_below, components_slash, components_of_single single, lib]
  rfl

/-- Without any `lib` the pattern stands for itself, and `find` fails. -/
theorem libs_none (bare : Bare m.rootdir.toList) (empty : ¬ AnyLib m cwd t) :
    libs cwd (P.exported m) t = none := by
  have found : matching t cwd (m.rootdir.toList ++ '/' :: "out".toList ++ ['/'])
      [['*'], "lib".toList] = [] := by
    rw [List.eq_nil_iff_forall_not_mem]
    intro word hw
    obtain ⟨n, seen, there, -⟩ := mem_found.mp hw
    exact empty ⟨n, seen, there⟩
  have literal : m.rootdir.toList ++ '/' :: "out/*/lib".toList
      = m.rootdir.toList ++ '/' :: "out".toList ++ '/' :: ['*'] ++ '/' :: "lib".toList := by simp
  have missing : t.node (outDir m cwd ++ [['*'], "lib".toList]) = none := by
    rw [← Option.not_isSome_iff_eq_none]
    exact fun there => empty ⟨['*'], by decide, there⟩
  rw [libs, operands_eq bare, found]
  simp only [if_true, findArchives, List.map_cons, List.map_nil, List.all_cons, List.all_nil]
  rw [literal, resolve_lib (by decide), missing]
  rfl

/-- **`LIBS`** names the archives word by word. -/
theorem libs_some (bare : Bare m.rootdir.toList) (any : AnyLib m cwd t) :
    ∃ text, libs cwd (P.exported m) t = some text ∧ ∀ w, w ∈ fields text ↔ LibWord m cwd t w := by
  have nonempty : matching t cwd (m.rootdir.toList ++ '/' :: "out".toList ++ ['/'])
      [['*'], "lib".toList] ≠ [] := by
    obtain ⟨n, seen, there⟩ := any
    exact List.ne_nil_of_mem (mem_found.mpr ⟨n, seen, there, rfl⟩)
  -- the operands, as paths
  have paths : ∀ p, p ∈ (matching t cwd (m.rootdir.toList ++ '/' :: "out".toList ++ ['/'])
      [['*'], "lib".toList]).map (resolve cwd) ↔ ∃ n, visible n = true ∧
        (t.node (outDir m cwd ++ [n, "lib".toList])).isSome = true ∧
        outDir m cwd ++ [n, "lib".toList] = p := by
    intro p
    have proper : ∀ {n}, (t.node (outDir m cwd ++ [n, "lib".toList])).isSome = true → Proper n :=
      fun {n} there => t.proper (outDir m cwd) n
        (FileTree.isSome_of_below ⟨["lib".toList], by simp⟩ there)
    rw [List.mem_map]
    constructor
    · rintro ⟨word, hw, rfl⟩
      obtain ⟨n, seen, there, rfl⟩ := mem_found.mp hw
      exact ⟨n, seen, there, (resolve_lib (proper there).single).symm⟩
    · rintro ⟨n, seen, there, rfl⟩
      exact ⟨_, mem_found.mpr ⟨n, seen, there, rfl⟩, resolve_lib (proper there).single⟩
  rw [libs, operands_eq bare]
  simp only [if_neg nonempty, findArchives]
  have exist : ((matching t cwd (m.rootdir.toList ++ '/' :: "out".toList ++ ['/'])
      [['*'], "lib".toList]).map (resolve cwd)).all (fun p => (t.node p).isSome) = true := by
    rw [List.all_eq_true]
    intro p hp
    obtain ⟨n, -, there, rfl⟩ := (paths p).mp hp
    exact there
  rw [if_pos exist]
  refine ⟨_, rfl, fun w => ?_⟩
  rw [mem_fields_sortUniq, fields_unlines, List.mem_flatMap]
  simp only [List.mem_flatMap, List.mem_filter, List.mem_append, Option.mem_toList]
  constructor
  · rintro ⟨k, ⟨p, hp, hk, archive⟩, hw⟩
    obtain ⟨n, seen, there, rfl⟩ := (paths p).mp hp
    rcases hk with last | listed
    · -- the operand is called `lib`
      have : "lib".toList = k := by simpa using last
      rw [← this] at archive
      cases archive
    · rw [FileTree.mem_names, List.append_assoc] at listed
      exact ⟨k, ⟨archive, n, seen, listed⟩, hw⟩
  · rintro ⟨k, ⟨archive, n, seen, there⟩, hw⟩
    have above : (t.node (outDir m cwd ++ [n, "lib".toList])).isSome = true :=
      FileTree.isSome_of_below ⟨[k], by simp⟩ there
    refine ⟨k, ⟨_, (paths _).mpr ⟨n, seen, above, rfl⟩, .inr ?_, archive⟩, hw⟩
    rw [FileTree.mem_names, List.append_assoc]
    exact there

end Libs

/-! ### The calls -/

/-- A call that `lipo` can serve: it has inputs, all of them exist, and the output has a directory
to go to. -/
structure Served (cwd : Path) (c : LipoCall α) : Prop where
  some_input : c.inputs ≠ []
  inputs : ∀ input ∈ c.inputs, c.tree.isFile (resolve cwd input) = true
  directory : c.tree.isDir (resolve cwd c.output).dropLast = true

/-- `lipo -create` fails without inputs, and joins archives of different architectures. -/
structure Joins (tools : Tools α) (arch : α → String) : Prop where
  empty : tools.lipo [] = none
  different : ∀ as, as ≠ [] → (as.map arch).Nodup → (tools.lipo as).isSome = true

theorem mapM_of_forall {β γ δ : Type} {f : β → Option γ} {g : γ → δ} {h : β → δ} {xs : List β}
    (each : ∀ x ∈ xs, ∃ y, f x = some y ∧ g y = h x) :
    ∃ ys, xs.mapM f = some ys ∧ ys.map g = xs.map h := by
  induction xs with
  | nil => exact ⟨[], rfl, rfl⟩
  | cons x xs ih =>
    obtain ⟨y, hy, gy⟩ := each x (by simp)
    obtain ⟨ys, hys, gys⟩ := ih fun z hz => each z (List.mem_cons_of_mem x hz)
    refine ⟨y :: ys, ?_, by rw [List.map_cons, List.map_cons, gy, gys]⟩
    rw [List.mapM_cons, hy, hys]
    rfl

theorem forall_of_mapM {β γ : Type} {f : β → Option γ} {xs : List β} {ys : List γ}
    (h : xs.mapM f = some ys) : (∀ x ∈ xs, (f x).isSome = true) ∧ (xs = [] → ys = []) := by
  induction xs generalizing ys with
  | nil => exact ⟨by simp, fun _ => (Option.some.inj h).symm⟩
  | cons x xs ih =>
    rw [List.mapM_cons] at h
    obtain ⟨y, hy, h⟩ := Option.bind_eq_some_iff.mp h
    obtain ⟨zs, hzs, -⟩ := Option.bind_eq_some_iff.mp h
    refine ⟨fun z hz => ?_, by simp⟩
    rcases List.mem_cons.mp hz with rfl | hz
    · rw [hy]
      rfl
    · exact (ih hzs).1 z hz

section Calls

variable {m P cwd} {tools : Tools α} {arch : α → String} {s : Progress α} {t : FileTree α}
  {libname output : List Char} {inputs : List (List Char)}

/-- **One call of `lipo`.** -/
theorem lipoCreate_ends : Ends
    (fun s' => s'.calls = s.calls ++ [⟨output, inputs, s.tree⟩] ∧ ∃ contents joined,
      (inputs.mapM fun input => s.tree.content (resolve cwd input)) = some contents ∧
        tools.lipo contents = some joined ∧
        s.tree.write (resolve cwd output) joined = some s'.tree)
    (fun s' => s'.calls = s.calls ++ [⟨output, inputs, s.tree⟩] ∧ s'.tree = s.tree ∧
      ∀ contents joined,
        (inputs.mapM fun input => s.tree.content (resolve cwd input)) = some contents →
        tools.lipo contents = some joined → s.tree.write (resolve cwd output) joined = none)
    (lipoCreate tools cwd output inputs s) := by
  refine (onTree_ends _ _).mono ?_ ?_
  · rintro _ ⟨t, ht, rfl⟩
    obtain ⟨contents, read, ht⟩ := Option.bind_eq_some_iff.mp ht
    obtain ⟨joined, made, written⟩ := Option.bind_eq_some_iff.mp ht
    exact ⟨rfl, contents, joined, read, made, written⟩
  · rintro _ ⟨rfl, failed⟩
    refine ⟨rfl, rfl, fun contents joined read made => ?_⟩
    simpa [read, made] using failed

/-- A call that goes through could be served. -/
theorem served_of_ok (joins : Joins tools arch) {contents : List α} {joined : α} {u : FileTree α}
    (read : (inputs.mapM fun input => t.content (resolve cwd input)) = some contents)
    (made : tools.lipo contents = some joined)
    (written : t.write (resolve cwd output) joined = some u) : Served cwd ⟨output, inputs, t⟩ := by
  obtain ⟨each, empty⟩ := forall_of_mapM read
  refine ⟨?_, each, ?_⟩
  · intro none
    rw [empty none, joins.empty] at made
    cases made
  · obtain ⟨d, n, same, parent, -⟩ :=
      FileTree.free_iff.mp (FileTree.write_isSome.mp (by rw [written]; rfl))
    rw [same, List.dropLast_concat]
    exact FileTree.isDir_iff.mpr parent

/-- The listed prefixes are out of reach of the universal one. -/
theorem holding_congr {u : FileTree α} (frame : FileTree.AgreeOff (at_ m P cwd "universal" []) t u)
    (libname : List Char) : holding m P cwd u libname = holding m P cwd t libname := by
  apply List.filter_congr
  intro a ha
  rw [frame.isFile (at_apart (archs_not_universal a ha).symm [] _)]

/-- The call for a library. -/
structure CallFor (m : Machine) (P : Platform) (cwd : Path) (t : FileTree α) (libname : List Char)
    (c : LipoCall α) : Prop where
  output : c.output = universalLib (P.exported m) libname
  inputs : c.inputs = (holding m P cwd t libname).map fun arch => libIn (P.exported m) arch libname

/-- What one round of the second loop does. -/
theorem mergeLib_ends (bare : Bare m.rootdir.toList) (hl : Bare libname) (name : Single libname)
    (frame : FileTree.AgreeOff (at_ m P cwd "universal" []) t s.tree) : Ends
    (fun s' => ∃ c, CallFor m P cwd t libname c ∧ s'.calls = s.calls ++ [c] ∧ c.tree = s.tree ∧
      ∃ contents joined,
        (c.inputs.mapM fun input => s.tree.content (resolve cwd input)) = some contents ∧
        tools.lipo contents = some joined ∧
        s.tree.write (at_ m P cwd "universal" ["lib".toList, libname]) joined = some s'.tree)
    (fun s' => ∃ c, CallFor m P cwd t libname c ∧ s'.calls = s.calls ++ [c] ∧ s'.tree = s.tree ∧
      ∀ contents joined,
        (c.inputs.mapM fun input => s.tree.content (resolve cwd input)) = some contents →
        tools.lipo contents = some joined →
        s.tree.write (at_ m P cwd "universal" ["lib".toList, libname]) joined = none)
    (mergeLib tools cwd (P.exported m) libname s) := by
  have inputs : unquoted s.tree cwd (fromLibs cwd (P.exported m) s.tree libname)
      = (holding m P cwd s.tree libname).map fun arch => libIn (P.exported m) arch libname :=
    unquoted_fromLibs bare hl name
  rw [holding_congr frame] at inputs
  rw [mergeLib, inputs]
  refine lipoCreate_ends.mono ?_ ?_
  · rintro s' ⟨calls, contents, joined, read, made, written⟩
    rw [resolve_universalLib name] at written
    exact ⟨_, ⟨rfl, rfl⟩, calls, rfl, contents, joined, read, made, written⟩
  · rintro s' ⟨calls, same, failed⟩
    rw [resolve_universalLib name] at failed
    exact ⟨_, ⟨rfl, rfl⟩, calls, same, failed⟩

/-- A library of the universal prefix, written. -/
theorem write_frame {u w : FileTree α} {joined : α}
    (frame : FileTree.AgreeOff (at_ m P cwd "universal" []) t u)
    (h : u.write (at_ m P cwd "universal" ["lib".toList, libname]) joined = some w) :
    FileTree.AgreeOff (at_ m P cwd "universal" []) t w := by
  refine frame.trans ((FileTree.write_agreeOff h).above ?_)
  rw [← List.nil_append ["lib".toList, libname], at_append]
  exact List.prefix_append _ _

/-- **The second loop makes no other calls**, wherever it stops. -/
theorem mergeLibs_calls {words : List (List Char)} (bare : Bare m.rootdir.toList)
    (hw : ∀ w ∈ words, Bare w ∧ Single w)
    (frame : FileTree.AgreeOff (at_ m P cwd "universal" []) t s.tree) :
    Ends (fun s' => FileTree.AgreeOff (at_ m P cwd "universal" []) t s'.tree ∧
        ∀ c ∈ s'.calls, c ∈ s.calls ∨ ∃ w ∈ words, CallFor m P cwd t w c)
      (fun s' => ∀ c ∈ s'.calls, c ∈ s.calls ∨ ∃ w ∈ words, CallFor m P cwd t w c)
      (words.foldlM (fun s libname => mergeLib tools cwd (P.exported m) libname s) s) := by
  refine ends_foldlM ⟨frame, fun c hc => .inl hc⟩ ?_
  rintro w hmem s' ⟨frame, calls⟩
  have grown : ∀ {s'' : Progress α} {c : LipoCall α}, CallFor m P cwd t w c →
      s''.calls = s'.calls ++ [c] →
      ∀ d ∈ s''.calls, d ∈ s.calls ∨ ∃ w ∈ words, CallFor m P cwd t w d := by
    intro s'' c made same d hd
    rw [same, List.mem_append, List.mem_singleton] at hd
    rcases hd with hd | rfl
    · exact calls d hd
    · exact .inr ⟨w, hmem, made⟩
  refine (mergeLib_ends bare (hw w hmem).1 (hw w hmem).2 frame).mono ?_ ?_
  · rintro s'' ⟨c, made, same, -, contents, joined, -, -, written⟩
    exact ⟨write_frame frame written, grown made same⟩
  · rintro s'' ⟨c, made, same, -⟩
    exact grown made same

/-- What `LIBS` names is of the architecture of the platform in whose prefix it lies. -/
def Sliced (m : Machine) (P : Platform) (cwd : Path) (arch : α → String) (t : FileTree α) : Prop :=
  ∀ Q : Platform, ∀ n a, LibWord m cwd t n →
    t.content (at_ m P cwd Q.slice ["lib".toList, n]) = some a → arch a = Q.archName

/-- A listed prefix is that of a platform. -/
def OfPlatforms (m : Machine) (P : Platform) (cwd : Path) (t : FileTree α) : Prop :=
  ∀ a ∈ archs, t.isDir (at_ m P cwd a []) = true → ∃ Q : Platform, Q.slice = a

/-- The architecture in the name of a prefix. -/
def archOf (slice : String) : String :=
  ((Platform.all.find? fun Q => Q.slice = slice).map Platform.archName).getD ""

theorem archOf_slice (Q : Platform) : archOf Q.slice = Q.archName := by
  cases Q <;> decide

/-- A prefix that holds a file is there. -/
theorem isDir_of_holds {a : String} {r : Path} (nonempty : r ≠ [])
    (h : t.isFile (at_ m P cwd a r) = true) : t.isDir (at_ m P cwd a []) = true := by
  rw [← List.nil_append r, at_append] at h
  obtain ⟨c, hc⟩ := FileTree.isFile_iff.mp h
  exact FileTree.isDir_iff.mpr (FileTree.isDir_of_append nonempty (by rw [hc]; rfl))

/-- The inputs of a call are of different architectures. -/
theorem holding_different (platforms : OfPlatforms m P cwd t) (libname : List Char) :
    ((holding m P cwd t libname).map archOf).Nodup := by
  have few : (archs.filter fun a => Platform.all.any fun Q => Q.slice = a).map archOf
      = ["x86_64", "armv7", "i386"] := by decide
  have sub : (holding m P cwd t libname).Sublist
      (archs.filter fun a => Platform.all.any fun Q => Q.slice = a) := by
    have filtered : holding m P cwd t libname
        = (archs.filter fun a => Platform.all.any fun Q => Q.slice = a).filter
          fun a => t.isFile (at_ m P cwd a ["lib".toList, libname]) := by
      rw [List.filter_filter, holding]
      apply List.filter_congr
      intro a ha
      cases file : t.isFile (at_ m P cwd a ["lib".toList, libname]) with
      | false => rfl
      | true =>
        obtain ⟨Q, hQ⟩ := platforms a ha (isDir_of_holds (by simp) file)
        rw [Bool.true_and, eq_comm, List.any_eq_true]
        exact ⟨Q, Q.mem_all, decide_eq_true hQ⟩
    rw [filtered]
    exact List.filter_sublist
  have := (sub.map archOf).nodup (few ▸ by decide)
  exact this

/-- The contents of the inputs. -/
theorem contents_of_holding {u : FileTree α} (platforms : OfPlatforms m P cwd t)
    (sliced : Sliced m P cwd arch t) (listed : LibWord m cwd t libname)
    (frame : FileTree.AgreeOff (at_ m P cwd "universal" []) t u) (name : Single libname) :
    ∃ contents, (((holding m P cwd t libname).map fun a => libIn (P.exported m) a libname).mapM
        fun input => u.content (resolve cwd input)) = some contents ∧
      contents.map arch = (holding m P cwd t libname).map archOf := by
  have each : ∀ a ∈ holding m P cwd t libname, ∃ c,
      u.content (resolve cwd (libIn (P.exported m) a libname)) = some c ∧ arch c = archOf a := by
    intro a ha
    obtain ⟨known, file⟩ := List.mem_filter.mp ha
    obtain ⟨Q, rfl⟩ := platforms a known (isDir_of_holds (by simp) file)
    obtain ⟨c, hc⟩ := Option.isSome_iff_exists.mp file
    refine ⟨c, ?_, by rw [sliced Q libname c listed hc, archOf_slice]⟩
    rw [resolve_libIn (archs_flat _ known) name,
      frame.content (at_apart (archs_not_universal _ known).symm [] _), hc]
  rw [List.mapM_map]
  exact mapM_of_forall each

/-- **A library that some listed prefix has** is joined. -/
theorem mergeLib_completes (bare : Bare m.rootdir.toList) (joins : Joins tools arch)
    (platforms : OfPlatforms m P cwd t) (sliced : Sliced m P cwd arch t)
    (listed : LibWord m cwd t libname) (hl : Bare libname) (name : Single libname)
    (frame : FileTree.AgreeOff (at_ m P cwd "universal" []) t s.tree)
    (covered : holding m P cwd t libname ≠ [])
    (copied : s.tree.isFile (at_ m P cwd "universal" ["lib".toList, libname]) = true) : Ends
    (fun s' => ∃ c, CallFor m P cwd t libname c ∧ Served cwd c ∧ s'.calls = s.calls ++ [c] ∧
      ∃ joined,
        s.tree.write (at_ m P cwd "universal" ["lib".toList, libname]) joined = some s'.tree)
    (fun _ => False) (mergeLib tools cwd (P.exported m) libname s) := by
  refine (mergeLib_ends bare hl name frame).mono ?_ ?_
  · rintro s' ⟨c, made, calls, found, contents, joined, read, joint, written⟩
    refine ⟨c, made, ?_, calls, joined, written⟩
    rw [← resolve_universalLib name, ← made.output] at written
    have served := served_of_ok joins read joint written
    rwa [← found] at served
  · rintro s' ⟨c, made, -, -, failed⟩
    obtain ⟨contents, read, archs⟩ := contents_of_holding platforms sliced listed frame name
    rw [← made.inputs] at read
    have some_content : contents ≠ [] := by
      rintro rfl
      exact covered (List.map_eq_nil_iff.mp archs.symm)
    have joint := joins.different contents some_content (by
      rw [archs]
      exact holding_different platforms libname)
    obtain ⟨joined, made⟩ := Option.isSome_iff_exists.mp joint
    have written := failed contents joined read made
    have free := FileTree.free_of_isFile copied
    rw [← FileTree.write_isSome (a := joined), written] at free
    cases free

/-- **The second loop runs to its end** where every name is covered. -/
theorem mergeLibs_completes {words : List (List Char)} (bare : Bare m.rootdir.toList)
    (joins : Joins tools arch) (platforms : OfPlatforms m P cwd t) (sliced : Sliced m P cwd arch t)
    (listed : ∀ w ∈ words, LibWord m cwd t w) (hw : ∀ w ∈ words, Bare w ∧ Single w)
    (frame : FileTree.AgreeOff (at_ m P cwd "universal" []) t s.tree)
    (covered : ∀ w ∈ words, holding m P cwd t w ≠ [])
    (copied : ∀ w ∈ words, s.tree.isFile (at_ m P cwd "universal" ["lib".toList, w]) = true) : Ends
    (fun s' => FileTree.AgreeOff (at_ m P cwd "universal" []) t s'.tree ∧
      (∀ c ∈ s'.calls, c ∈ s.calls ∨ Served cwd c) ∧
      ∀ w ∈ words, ∃ c ∈ s'.calls, CallFor m P cwd t w c)
    (fun _ => False)
    (words.foldlM (fun s libname => mergeLib tools cwd (P.exported m) libname s) s) := by
  -- a name is called for or still to come
  let I : List (List Char) → Progress α → Prop := fun rest s' =>
    FileTree.AgreeOff (at_ m P cwd "universal" []) t s'.tree ∧
      (∀ w ∈ words, s'.tree.isFile (at_ m P cwd "universal" ["lib".toList, w]) = true) ∧
      (∀ c ∈ s'.calls, c ∈ s.calls ∨ Served cwd c) ∧
      ∀ w ∈ words, w ∈ rest ∨ ∃ c ∈ s'.calls, CallFor m P cwd t w c
  have start : I words s := ⟨frame, copied, fun _ hc => .inl hc, fun _ hw => .inl hw⟩
  refine (ends_foldlM_rest start ?_).mono ?_ fun _ stopped => stopped
  · rintro w rest s' hmem ⟨frame, copied, served, reached⟩
    obtain ⟨hl, name⟩ := hw w hmem
    refine (mergeLib_completes bare joins platforms sliced (listed w hmem) hl name frame
      (covered w hmem) (copied w hmem)).mono ?_ fun _ stopped => stopped
    rintro s'' ⟨c, made, good, calls, joined, written⟩
    refine ⟨write_frame frame written, ?_, ?_, ?_⟩
    · intro w' hw'
      by_cases same : at_ m P cwd "universal" ["lib".toList, w']
          = at_ m P cwd "universal" ["lib".toList, w]
      · rw [same]
        exact FileTree.isFile_of_content (FileTree.write_content written)
      · rw [FileTree.isFile, FileTree.content, FileTree.write_other written same]
        exact copied w' hw'
    · intro d hd
      rw [calls, List.mem_append, List.mem_singleton] at hd
      rcases hd with hd | rfl
      · exact served d hd
      · exact .inr good
    · intro w' hw'
      rw [calls]
      rcases reached w' hw' with more | ⟨d, hd, for_w'⟩
      · rcases List.mem_cons.mp more with rfl | more
        · exact .inr ⟨c, by simp, made⟩
        · exact .inl more
      · exact .inr ⟨d, by simp [hd], for_w'⟩
  · rintro s' ⟨frame, -, served, reached⟩
    refine ⟨frame, served, fun w hw => ?_⟩
    rcases reached w hw with none | found
    · cases none
    · exact found

/-- Where it does, every name was covered. -/
theorem mergeLibs_needs {words : List (List Char)} (bare : Bare m.rootdir.toList)
    (joins : Joins tools arch) (hw : ∀ w ∈ words, Bare w ∧ Single w)
    (frame : FileTree.AgreeOff (at_ m P cwd "universal" []) t s.tree) : Ends
    (fun s' => FileTree.AgreeOff (at_ m P cwd "universal" []) t s'.tree ∧
      ∀ w ∈ words, holding m P cwd t w ≠ [])
    (fun _ => True)
    (words.foldlM (fun s libname => mergeLib tools cwd (P.exported m) libname s) s) := by
  let I : List (List Char) → Progress α → Prop := fun rest s' =>
    FileTree.AgreeOff (at_ m P cwd "universal" []) t s'.tree ∧
      ∀ w ∈ words, w ∈ rest ∨ holding m P cwd t w ≠ []
  have start : I words s := ⟨frame, fun _ hw => .inl hw⟩
  refine (ends_foldlM_rest start ?_).mono ?_ fun _ stopped => stopped
  · rintro w rest s' hmem ⟨frame, covered⟩
    obtain ⟨hl, name⟩ := hw w hmem
    refine (mergeLib_ends bare hl name frame).mono ?_ fun _ _ => trivial
    rintro s'' ⟨c, made, -, -, contents, joined, read, joint, written⟩
    refine ⟨write_frame frame written, fun w' hw' => ?_⟩
    rcases covered w' hw' with more | held
    · rcases List.mem_cons.mp more with rfl | more
      · right
        rw [← resolve_universalLib name] at written
        have served := served_of_ok joins read joint written
        intro none
        exact served.some_input (by rw [made.inputs, none]; rfl)
      · exact .inl more
    · exact .inr held
  · rintro s' ⟨frame, covered⟩
    refine ⟨frame, fun w hw => ?_⟩
    rcases covered w hw with none | held
    · cases none
    · exact held

end Calls

/-! ### The first and the last step -/

/-- `${MAPNIK_BIN_SOURCE}/lib/libmapnik.a` -/
def mapnikLib (m : Machine) (P : Platform) (cwd : Path) : Path :=
  at_ m P cwd (P.slice ++ "-mapnik") ["usr".toList, "local".toList, "lib".toList,
    "libmapnik.a".toList]

section Ends

variable {m P cwd} {tools : Tools α} {s : Progress α} {t : FileTree α} {arch : String}

theorem slice_flat (P : Platform) : '/' ∉ P.slice.toList := by
  cases P <;> decide

theorem slice_bare (P : Platform) : Bare P.slice.toList := by
  cases P <;> decide

theorem resolve_mapnikIn (flat : '/' ∉ arch.toList) :
    resolve cwd (mapnikIn (P.exported m) arch) = at_ m P cwd (arch ++ "-mapnik")
      ["usr".toList, "local".toList, "lib".toList, "libmapnik.a".toList] := by
  have text : mapnikIn (P.exported m) arch
      = below m (entry P (arch ++ "-mapnik") ++ '/' :: "/usr/local/lib/libmapnik.a".toList) := by
    rw [mapnikIn, prefixDir_eq]
    simp [Platform.exported, below, entry]
  have rest : components "/usr/local/lib/libmapnik.a".toList
      = ["usr".toList, "local".toList, "lib".toList, "libmapnik.a".toList] := by decide
  have flat' : '/' ∉ (arch ++ "-mapnik").toList := by simpa using flat
  rw [text, resolve_below, components_entry flat', rest]
  rfl

theorem mapnikBuilt_eq (bare : Bare m.rootdir.toList) :
    mapnikBuilt cwd (P.exported m) t = t.isFile (mapnikLib m P cwd) := by
  have text : (P.exported m).mapnik_bin_source.toList ++ "/lib/libmapnik.a".toList
      = below m (entry P (P.slice ++ "-mapnik") ++ '/' :: "usr/local/lib/libmapnik.a".toList) := by
    simp [Platform.exported, below, entry]
  have word : Bare (below m (entry P (P.slice ++ "-mapnik") ++
      '/' :: "usr/local/lib/libmapnik.a".toList)) := by
    refine bare_below bare (Bare.append (bare_entry ?_) (by decide))
    rw [String.toList_append]
    exact (slice_bare P).append (by decide)
  have rest : components "usr/local/lib/libmapnik.a".toList
      = ["usr".toList, "local".toList, "lib".toList, "libmapnik.a".toList] := by decide
  have flat : '/' ∉ (P.slice ++ "-mapnik").toList := by simpa using slice_flat P
  rw [mapnikBuilt, text, unquoted_bare (by simp [below]) word]
  simp only []
  rw [resolve_below, components_entry flat, rest]
  rfl

theorem resolve_universalMapnik :
    resolve cwd ((P.exported m).build_universal.toList ++ "/libmapnik.a".toList)
      = at_ m P cwd "universal" ["libmapnik.a".toList] := by
  have text : (P.exported m).build_universal.toList ++ "/libmapnik.a".toList
      = below m (entry P "universal" ++ '/' :: "libmapnik.a".toList) := by
    simp [build_universal_eq, below]
  have rest : components "libmapnik.a".toList = ["libmapnik.a".toList] := by decide
  rw [text, resolve_below, components_entry (by decide), rest]
  rfl

theorem slice_mapnik_apart (P : Platform) : P.slice ++ "-mapnik" ≠ "universal" := by
  cases P <;> decide

/-- The call for mapnik itself. -/
def mapnikCall (m : Machine) (P : Platform) (t : FileTree α) : LipoCall α where
  output := (P.exported m).build_universal.toList ++ "/libmapnik.a".toList
  inputs := mapnikArchs.map (mapnikIn (P.exported m))
  tree := t

/-- **The last step** is one call, guarded by the build of the platform that is set. -/
theorem mergeMapnik_ends (bare : Bare m.rootdir.toList)
    (frame : FileTree.AgreeOff (at_ m P cwd "universal" []) t s.tree) : Ends
    (fun s' => (t.isFile (mapnikLib m P cwd) = false ∧ s' = s) ∨
      (t.isFile (mapnikLib m P cwd) = true ∧ s'.calls = s.calls ++ [mapnikCall m P s.tree] ∧
        ∃ contents joined, ((mapnikCall m P s.tree).inputs.mapM fun input =>
            s.tree.content (resolve cwd input)) = some contents ∧
          tools.lipo contents = some joined ∧
          s.tree.write (at_ m P cwd "universal" ["libmapnik.a".toList]) joined = some s'.tree))
    (fun s' => t.isFile (mapnikLib m P cwd) = true ∧
      s'.calls = s.calls ++ [mapnikCall m P s.tree] ∧ s'.tree = s.tree)
    (mergeMapnik tools cwd (P.exported m) s) := by
  have guard : s.tree.isFile (mapnikLib m P cwd) = t.isFile (mapnikLib m P cwd) :=
    frame.isFile (at_apart (slice_mapnik_apart P).symm [] _)
  unfold mergeMapnik
  rw [mapnikBuilt_eq bare, guard]
  split
  · next built =>
    refine lipoCreate_ends.mono ?_ ?_
    · rintro s' ⟨calls, contents, joined, read, joint, written⟩
      rw [resolve_universalMapnik] at written
      exact .inr ⟨built, calls, contents, joined, read, joint, written⟩
    · rintro s' ⟨calls, same, -⟩
      exact ⟨built, calls, same⟩
  · next absent => exact .inl ⟨Bool.eq_false_iff.mpr absent, rfl⟩

/-- **The first step** adds the universal prefix, and nothing else where `out/` is there. -/
theorem mkdirs_universal (out : t.isDir (outDir m cwd) = true)
    (free : t.isFile (at_ m P cwd "universal" []) = false) :
    ∃ u, t.mkdirs (at_ m P cwd "universal" []) = some u ∧
      u.isDir (at_ m P cwd "universal" []) = true ∧
      ∀ q ≠ at_ m P cwd "universal" [], u.node q = t.node q := by
  have above : ∀ q, q <+: at_ m P cwd "universal" [] → q ≠ at_ m P cwd "universal" [] →
      t.isDir q = true := by
    intro q le differ
    rcases List.prefix_concat_iff.mp le with same | le
    · exact absurd same differ
    · exact FileTree.isDir_of_below le out
  have names : ∀ n ∈ at_ m P cwd "universal" [], Proper n := by
    intro n hn
    rcases List.mem_append.mp hn with hn | hn
    · exact FileTree.proper_of_isDir out n hn
    · rw [List.mem_singleton.mp hn]
      exact entry_proper (by decide)
  have clear : ∀ q, q <+: at_ m P cwd "universal" [] → t.isFile q = false := by
    intro q le
    by_cases same : q = at_ m P cwd "universal" []
    · rw [same, free]
    · rw [Bool.eq_false_iff]
      exact fun file => FileTree.not_isDir_of_isFile file
        (FileTree.isDir_iff.mp (above q le same))
  obtain ⟨u, made⟩ := Option.isSome_iff_exists.mp (FileTree.mkdirs_isSome names clear)
  have node := FileTree.mkdirs_node made
  refine ⟨u, made, ?_, fun q differ => ?_⟩
  · rw [FileTree.isDir_iff, node]
    rcases t.node_cases (at_ m P cwd "universal" []) with absent | dir | file
    · rw [if_pos ⟨List.prefix_refl _, absent⟩]
    · rw [if_neg (by simp [FileTree.isDir_iff.mp dir]), FileTree.isDir_iff.mp dir]
    · rw [free] at file
      cases file
  · rw [node, if_neg]
    rintro ⟨le, absent⟩
    rw [FileTree.isDir_iff.mp (above q le differ)] at absent
    cases absent

end Ends

end Universal

end MapnikPackaging
