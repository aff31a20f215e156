/-
What the steps of `package_mobile_sdk.sh` leave alone.

What fills the package writes into its directory, into the directory of `mktemp`, or where
`build_boost.sh` writes; the tarball lies beside the package. `Keeps` says this of one
command, with the directories that stay, and the rules for blocks, tests and loops carry it through
the script.

* `keeps_prepare`, `keeps_copyLibs` — the parts that fill the package.
* `Orderly.keeps_prepare`, `Orderly.keeps_finish` — on a platform.
* `package_eq` — the first step of the script.
-/

import MapnikPackaging.Sdk.Script
import MapnikPackaging.Universal.Completion

namespace MapnikPackaging.Sdk

open Files Shell

variable {α : Type} {kit : Kit α} {v : Site} {p : Packaging} {cwd dist d : Path}
  {rs ds : List Path} {t u : FileTree α} {s : Packing α}

/-! ### One command -/

/-- The trees differ at the places only, the directories are there, and nothing is uploaded. -/
structure Kept (rs ds : List Path) (s s' : Packing α) : Prop where
  outside : FileTree.AgreeOutside rs s.tree s'.tree
  dirs : ∀ d ∈ ds, s'.tree.isDir d = true
  uploads : s'.uploads = s.uploads

/-- The command changes the tree at the places only, and the directories stay. -/
structure Keeps (rs ds : List Path) (c : Step α) : Prop where
  ends : ∀ s, (∀ d ∈ ds, s.tree.isDir d = true) → Ends (Kept rs ds s) (Kept rs ds s) (c s)

theorem Kept.refl (dirs : ∀ d ∈ ds, s.tree.isDir d = true) : Kept rs ds s s :=
  ⟨.refl rs s.tree, dirs, rfl⟩

theorem Kept.trans {s' s'' : Packing α} (first : Kept rs ds s s') (second : Kept rs ds s' s'') :
    Kept rs ds s s'' :=
  ⟨first.outside.trans second.outside, second.dirs, second.uploads.trans first.uploads⟩

theorem Keeps.of_ok {c : Step α} {s' : Packing α} (h : Keeps rs ds c)
    (dirs : ∀ d ∈ ds, s.tree.isDir d = true) (ran : c s = .ok s') : Kept rs ds s s' := by
  have ends := h.ends s dirs
  rwa [ran] at ends

theorem keeps_change {f : FileTree α → Option (FileTree α)}
    (outside : ∀ t u, (∀ d ∈ ds, t.isDir d = true) → f t = some u → FileTree.AgreeOutside rs t u)
    (stay : ∀ t u, f t = some u → ∀ d ∈ ds, t.isDir d = true → u.isDir d = true) :
    Keeps rs ds (change f) := by
  constructor
  intro s dirs
  unfold change
  cases made : f s.tree with
  | some u =>
    exact ⟨outside s.tree u dirs made, fun d hd => stay s.tree u made d hd (dirs d hd), rfl⟩
  | none => exact .refl dirs

/-- A change that has been made. -/
theorem change_ok {f : FileTree α → Option (FileTree α)} {s' : Packing α}
    (ran : change f s = .ok s') : ∃ u, f s.tree = some u ∧ s' = { s with tree := u } := by
  unfold change at ran
  split at ran
  · next u made => exact ⟨u, made, (Except.ok.inj ran).symm⟩
  · cases ran

/-- A part of a script that has gone through, and what follows it. -/
theorem Keeps.then {first second : Step α} {rs₁ ds₁ : List Path} {J : FileTree α → Prop}
    (h : Keeps rs₁ ds₁ first) (dirs : ∀ d ∈ ds₁, s.tree.isDir d = true)
    (stopped : ∀ s', Kept rs₁ ds₁ s s' → J s'.tree)
    (next : ∀ s', first s = .ok s' → Kept rs₁ ds₁ s s' → J (left (second s')).tree) :
    J (left (first s >>= second)).tree := by
  have ends := h.ends s dirs
  cases ran : first s with
  | error s' =>
    rw [ran] at ends
    exact stopped s' ends
  | ok s' =>
    rw [ran] at ends
    exact next s' ran ends

theorem keeps_run {steps : List (Step α)} (each : ∀ c ∈ steps, Keeps rs ds c) :
    Keeps rs ds (run steps) := by
  constructor
  intro s dirs
  have start : Kept rs ds s s := .refl dirs
  have ends : Ends (Kept rs ds s) (Kept rs ds s) (run steps s) := by
    apply ends_foldlM start
    intro c hc s' kept
    exact ((each c hc).ends s' kept.dirs).mono (fun _ h => kept.trans h) fun _ h => kept.trans h
  exact ends

theorem run_append (a b : List (Step α)) (s : Packing α) : run (a ++ b) s = run a s >>= run b := by
  rw [run, List.foldlM_append]
  rfl

theorem run_cons (c : Step α) (b : List (Step α)) (s : Packing α) :
    run (c :: b) s = c s >>= run b := rfl

theorem keeps_given {test : FileTree α → Bool} {steps : List (Step α)}
    (each : ∀ c ∈ steps, Keeps rs ds c) : Keeps rs ds (given test steps) := by
  constructor
  intro s dirs
  unfold given
  split
  · exact (keeps_run each).ends s dirs
  · exact .refl dirs

theorem keeps_each {text : FileTree α → List Char} {step : List Char → Step α}
    (body : ∀ i, Keeps rs ds (step i)) : Keeps rs ds (each cwd text step) := by
  constructor
  intro s dirs
  have start : Kept rs ds s s := .refl dirs
  apply ends_foldlM start
  intro i _ s' kept
  exact ((body i).ends s' kept.dirs).mono (fun _ h => kept.trans h) fun _ h => kept.trans h

/-- The argument is one word, and names something at a place, below a directory that stays. -/
def Arg.Below (rs ds : List Path) (cwd : Path) (a : Arg) : Prop :=
  ∃ w, (∀ {α : Type} (t : FileTree α), a.words t cwd = [w]) ∧
    ∃ d n r, resolve cwd w = d ++ n :: r ∧ d ++ [n] ∈ rs ∧ d ∈ ds

theorem keeps_mkdir {a : Arg} (below : a.Below rs ds cwd) :
    Keeps rs ds (mkdir (α := α) cwd a) := by
  obtain ⟨w, one, d, n, r, path, listed, -⟩ := below
  refine keeps_change (fun t u _ made => ?_) fun t u made d hd => ?_ <;>
    rw [one, List.foldlM_cons] at made <;>
    simp only [List.foldlM_nil, bind_pure] at made
  · exact (FileTree.mkdir_agreeOff made).outside ⟨_, listed, by rw [path]; simp⟩
  · exact FileTree.mkdir_isDir made

theorem isDir_of_mkdir {a : Arg} {w : List Char} {s' : Packing α}
    (one : ∀ t : FileTree α, a.words t cwd = [w]) (ran : mkdir cwd a s = .ok s') :
    s'.tree.isDir (resolve cwd w) = true := by
  obtain ⟨u, made, rfl⟩ := change_ok ran
  simp only [one, List.foldlM_cons, List.foldlM_nil, bind_pure] at made
  rw [FileTree.isDir_iff, FileTree.mkdir_node made, Function.update_self]

/-- The directories on the way are there, down to `d`. -/
theorem mkdirs_outside {n : Name} {r : Path} (dir : t.isDir d = true) (listed : d ++ [n] ∈ rs)
    (made : t.mkdirs (d ++ n :: r) = some u) : FileTree.AgreeOutside rs t u := by
  intro q hq
  rw [FileTree.mkdirs_node made, if_neg]
  rintro ⟨le, absent⟩
  -- a directory above `d` is there, and what is below it lies at the place
  rcases List.prefix_or_prefix_of_prefix le (List.prefix_append d (n :: r)) with
    above | ⟨rest, rfl⟩
  · have there := FileTree.isDir_iff.mp (FileTree.isDir_of_below above dir)
    rw [there] at absent
    cases absent
  · cases rest with
    | nil =>
      rw [List.append_nil, FileTree.isDir_iff.mp dir] at absent
      cases absent
    | cons k rest =>
      obtain ⟨rfl, -⟩ := List.cons_prefix_cons.mp ((List.prefix_append_right_inj d).mp le)
      exact hq _ listed ⟨rest, by simp⟩

theorem keeps_mkdirs {a : Arg} (below : a.Below rs ds cwd) :
    Keeps rs ds (mkdirs (α := α) cwd a) := by
  obtain ⟨w, one, d, n, r, path, listed, above⟩ := below
  refine keeps_change (fun t u dirs made => ?_) fun t u made d hd => ?_ <;>
    rw [one, List.foldlM_cons] at made <;>
    simp only [List.foldlM_nil, bind_pure] at made
  · rw [path] at made
    exact mkdirs_outside (dirs d above) listed made
  · exact FileTree.mkdirs_isDir made

theorem keeps_cp {deep : Bool} {sources : List Arg} {target : Arg}
    (below : target.Below rs ds cwd) : Keeps rs ds (cp (α := α) cwd deep sources target) := by
  obtain ⟨w, one, d, n, r, path, listed, -⟩ := below
  constructor
  intro s dirs
  have last : ((sources ++ [target]).flatMap (Arg.words s.tree cwd)).getLast? = some w := by
    rw [List.flatMap_append, List.flatMap_singleton, one, List.getLast?_concat]
  have kept : ∀ ops, Kept rs ds s
      { s with tree := (s.tree.copyAll deep (resolve cwd w) ops).1 } := fun ops =>
    ⟨FileTree.copyAll_agreeOff.outside ⟨_, listed, by rw [path]; simp⟩,
      fun d hd => FileTree.copyAll_dirs (dirs d hd), rfl⟩
  unfold cp
  simp only [last]
  split
  · exact .refl dirs
  · split
    · exact kept _
    · exact kept _

theorem delete_agreeOff (t : FileTree α) (q : Path) : FileTree.AgreeOff q t (delete t q) := by
  unfold delete
  split
  · next n last =>
    have := FileTree.remove_agreeOff t q.dropLast n
    rwa [List.dropLast_append_getLast? n last] at this
  · exact .refl q t

/-- Nothing above the directories is removed. -/
theorem keeps_rmAll {a : Arg}
    (below : ∀ t : FileTree α, ∀ w ∈ a.words t cwd,
      (∃ r ∈ rs, r <+: resolve cwd w) ∧ ∀ d ∈ ds, ¬ resolve cwd w <+: d) :
    Keeps rs ds (rmAll (α := α) cwd a) := by
  refine keeps_change (fun t u _ made => ?_) fun t u made d hd dir => ?_
  · refine FileTree.AgreeOutside.foldlM (fun w hw t u gone => ?_) made
    obtain rfl := Option.some.inj gone
    exact (delete_agreeOff t _).outside (below _ w hw).1
  · have frame : FileTree.AgreeOutside ((a.words t cwd).map (resolve cwd)) t u := by
      refine FileTree.AgreeOutside.foldlM (fun w hw t u gone => ?_) made
      obtain rfl := Option.some.inj gone
      exact (delete_agreeOff t _).outside
        ⟨_, List.mem_map_of_mem hw, List.prefix_refl (resolve cwd w)⟩
    rw [frame.isDir fun r hr => ?_, dir]
    obtain ⟨w, hw, rfl⟩ := List.mem_map.mp hr
    exact (below t w hw).2 d hd

theorem keeps_rm {a : Arg}
    (below : ∀ t : FileTree α, ∀ w ∈ a.words t cwd, ∃ r ∈ rs, r <+: resolve cwd w) :
    Keeps rs [] (rm (α := α) cwd a) := by
  refine keeps_change (fun t u _ made => ?_) (by simp)
  refine FileTree.AgreeOutside.foldlM (fun w hw t u gone => ?_) made
  split at gone
  · cases gone
  · obtain rfl := Option.some.inj gone
    exact (delete_agreeOff t _).outside (below _ w hw)

theorem keeps_redirect {f : FileTree α → Option α} {file : List Char}
    (below : ∃ r ∈ rs, r <+: resolve cwd file) : Keeps rs ds (redirect cwd f file) := by
  refine keeps_change (fun t u _ made => ?_) fun t u made d _ dir => ?_ <;>
    obtain ⟨a, -, written⟩ := Option.bind_eq_some_iff.mp made
  · exact (FileTree.write_agreeOff written).outside below
  · rw [FileTree.write_isDir written, dir]

/-! ### The parts of the script -/

/-- Where a run writes: below one entry of `dist`, where `mktemp` makes its directory, and where
`build_boost.sh` does. -/
structure Placed (kit : Kit α) (v : Site) (p : Packaging) (cwd dist : Path) (rs : List Path) :
    Prop where
  bare : Bare (localTarget v p).toList
  target : ∃ top more, resolve cwd ((localTarget v p).toList ++ ['/']) = dist ++ top :: more ∧
    dist ++ [top] ∈ rs
  staging : ∃ r ∈ rs, r <+: resolve cwd kit.staging
  boost : ∀ full t u, kit.boost full t = some u → FileTree.AgreeOutside rs t u

section Parts

variable (placed : Placed kit v p cwd dist rs)
include placed

theorem Placed.resolve_sub (rest : List Char) :
    ∃ n r, resolve cwd ((localTarget v p).toList ++ '/' :: rest) = dist ++ n :: r ∧
      dist ++ [n] ∈ rs := by
  obtain ⟨top, more, path, listed⟩ := placed.target
  exact ⟨top, more ++ components rest, by rw [resolve_slash, path]; simp, listed⟩

theorem Placed.quoted (stays : dist ∈ ds) (rest : List Char) :
    (Arg.quoted ((localTarget v p).toList ++ '/' :: rest)).Below rs ds cwd := by
  obtain ⟨n, r, path, listed⟩ := placed.resolve_sub rest
  exact ⟨_, fun _ => rfl, dist, n, r, path, listed, stays⟩

theorem Placed.split (stays : dist ∈ ds) {rest : List Char} (bare : Bare rest) :
    (Arg.split ((localTarget v p).toList ++ '/' :: rest)).Below rs ds cwd := by
  obtain ⟨n, r, path, listed⟩ := placed.resolve_sub rest
  refine ⟨_, fun t => unquoted_bare (by simp) ?_, dist, n, r, path, listed, stays⟩
  exact placed.bare.append (bare.cons (by decide))

theorem Placed.own (stays : dist ∈ ds) :
    (Arg.quoted (localTarget v p).toList).Below rs ds cwd := by
  obtain ⟨top, more, path, listed⟩ := placed.target
  have nonempty : (localTarget v p).toList ≠ [] := by simp [localTarget]
  rw [resolve_end cwd nonempty] at path
  exact ⟨_, fun _ => rfl, dist, top, more, path, listed, stays⟩

/-- What `rm` clears lies below the package. -/
theorem Placed.wild {rest : List Char} (blanks : ∀ c ∈ rest, isBlank c = false) (t : FileTree α) :
    ∀ w ∈ (Arg.split ((localTarget v p).toList ++ '/' :: rest)).words t cwd,
      (∃ r ∈ rs, r <+: resolve cwd w) ∧ ∀ d ∈ [dist], ¬ resolve cwd w <+: d := by
  intro w hw
  obtain ⟨x, rfl⟩ := below_of_unquoted placed.bare blanks hw
  obtain ⟨n, r, path, listed⟩ := placed.resolve_sub x
  refine ⟨⟨_, listed, by rw [path]; simp⟩, fun d hd le => ?_⟩
  have short := le.length_le
  rw [path, List.mem_singleton.mp hd] at short
  simp only [List.length_append, List.length_cons] at short
  omega

theorem keeps_clear : ∀ c ∈ clear kit v p cwd, Keeps rs [dist] c := by
  have stays : dist ∈ [dist] := List.mem_singleton_self dist
  rw [clear, List.forall_mem_cons, List.forall_mem_cons, List.forall_mem_singleton]
  refine ⟨keeps_mkdirs (placed.own stays), keeps_change (fun t u _ made => ?_)
    fun t u made d _ => ?_, keeps_rmAll (placed.wild (unblank_of_all (by decide)))⟩
  · exact (FileTree.mkdir_agreeOff made).outside placed.staging
  · exact FileTree.mkdir_isDir made

variable (stays : dist ∈ ds)
include stays

theorem keeps_layout : ∀ c ∈ layout (α := α) v p cwd, Keeps rs ds c := by
  rw [layout, List.forall_mem_cons, List.forall_mem_cons, List.forall_mem_cons,
    List.forall_mem_cons, List.forall_mem_singleton]
  exact ⟨keeps_mkdir (placed.split stays (by decide)), keeps_mkdir (placed.split stays (by decide)),
    keeps_mkdir (placed.split stays (by decide)), keeps_mkdirs (placed.split stays (by decide)),
    keeps_mkdir (placed.split stays (by decide))⟩

theorem keeps_copyMapnik : ∀ c ∈ copyMapnik kit v p cwd, Keeps rs ds c := by
  obtain ⟨n, r, path, listed⟩ := placed.resolve_sub "bin/mapnik-config".toList
  have config : ∃ r ∈ rs, r <+: resolve cwd (newMapnikConfig v p) :=
    ⟨_, listed, by rw [newMapnikConfig, sub, path]; simp⟩
  rw [copyMapnik, List.forall_mem_append, List.forall_mem_map]
  constructor
  · rw [List.forall_mem_cons, List.forall_mem_cons, List.forall_mem_cons,
      List.forall_mem_singleton]
    refine ⟨keeps_given ?_, keeps_redirect config, keeps_cp (placed.quoted stays _),
      keeps_given ?_⟩
    · exact List.forall_mem_singleton.mpr (keeps_cp (placed.quoted stays _))
    · rw [List.forall_mem_cons, List.forall_mem_singleton]
      exact ⟨keeps_mkdirs (placed.quoted stays _), keeps_cp (placed.quoted stays _)⟩
  · intro tool _
    exact keeps_given (List.forall_mem_singleton.mpr (keeps_cp (placed.quoted stays _)))

/-- What `build_boost.sh` does to the directories that stay is asked for. -/
theorem keeps_copyBoost (apart : ∀ full t u, kit.boost full t = some u →
    ∀ d ∈ ds, t.isDir d = true → u.isDir d = true) :
    ∀ c ∈ copyBoost kit v p cwd, Keeps rs ds c := by
  rw [copyBoost, List.forall_mem_cons, List.forall_mem_cons, List.forall_mem_singleton]
  have looks : ∀ (a : Arg) (t u : FileTree α),
      (if isDir cwd a t then some t else none) = some u → u = t := by
    intro a t u made
    split at made
    · exact (Option.some.inj made).symm
    · cases made
  refine ⟨keeps_change (fun t u _ => placed.boost _ t u) fun t u => apart _ t u,
    keeps_change (fun t u _ made => ?_) fun t u made d _ dir => ?_,
    keeps_cp (placed.split stays (by decide))⟩
  · rw [looks _ t u made]
    exact .refl rs t
  · rwa [looks _ t u made]

theorem keeps_fromBuild (deep : Bool) (source : String) {target : String}
    (bare : Bare target.toList) : Keeps rs ds (fromBuild (α := α) v p cwd deep source target) :=
  keeps_cp (placed.split stays bare)

theorem keeps_copyGdal : ∀ c ∈ copyGdal (α := α) v p cwd, Keeps rs ds c := by
  simp only [copyGdal, List.forall_mem_cons, List.not_mem_nil, IsEmpty.forall_iff, implies_true,
    and_true]
  exact ⟨keeps_mkdirs (placed.split stays (by decide)),
    keeps_fromBuild placed stays _ _ (by decide), keeps_fromBuild placed stays _ _ (by decide),
    keeps_fromBuild placed stays _ _ (by decide), keeps_fromBuild placed stays _ _ (by decide),
    keeps_fromBuild placed stays _ _ (by decide)⟩

theorem keeps_copyPostgres : ∀ c ∈ copyPostgres (α := α) v p cwd, Keeps rs ds c := by
  simp only [copyPostgres, List.forall_mem_cons, List.not_mem_nil, IsEmpty.forall_iff,
    implies_true, and_true]
  exact ⟨keeps_mkdirs (placed.split stays (by decide)),
    keeps_fromBuild placed stays _ _ (by decide), keeps_fromBuild placed stays _ _ (by decide),
    keeps_fromBuild placed stays _ _ (by decide), keeps_fromBuild placed stays _ _ (by decide),
    keeps_fromBuild placed stays _ _ (by decide)⟩

theorem keeps_copySqlite : ∀ c ∈ copySqlite (α := α) v p cwd, Keeps rs ds c := by
  rw [copySqlite, List.forall_mem_cons, List.forall_mem_cons, List.forall_mem_singleton]
  exact ⟨keeps_mkdirs (placed.split stays (by decide)),
    keeps_fromBuild placed stays _ _ (by decide), keeps_fromBuild placed stays _ _ (by decide)⟩

theorem keeps_copyFull : ∀ c ∈ copyFull (α := α) v p cwd, Keeps rs ds c := by
  rw [copyFull, List.forall_mem_cons, List.forall_mem_cons, List.forall_mem_cons,
    List.forall_mem_cons, List.forall_mem_singleton]
  have freetype : ∀ c ∈ [fromBuild (α := α) v p cwd true "include/freetype2" "include/"],
      Keeps rs ds c :=
    List.forall_mem_singleton.mpr (keeps_fromBuild placed stays _ _ (by decide))
  exact ⟨keeps_given freetype, keeps_given (keeps_copyGdal placed stays),
    keeps_given (keeps_copyPostgres placed stays), keeps_given (keeps_copySqlite placed stays),
    keeps_fromBuild placed stays _ _ (by decide)⟩

theorem keeps_headerDir {name : String} : Keeps rs ds (headerDir (α := α) v p cwd name) :=
  keeps_given (List.forall_mem_singleton.mpr (keeps_fromBuild placed stays _ _ (by decide)))

theorem keeps_headerFiles {name : String} : Keeps rs ds (headerFiles (α := α) v p cwd name) :=
  keeps_each fun _ => keeps_cp (placed.split stays (by decide))

theorem keeps_copyProtobuf : ∀ c ∈ copyProtobuf kit v p cwd, Keeps rs ds c := by
  rw [copyProtobuf, List.forall_mem_append]
  constructor
  · cases kit.protoc with
    | none => exact List.forall_mem_nil _
    | some file => exact List.forall_mem_singleton.mpr (keeps_cp (placed.split stays (by decide)))
  · rw [List.forall_mem_cons, List.forall_mem_cons, List.forall_mem_cons,
      List.forall_mem_singleton]
    exact ⟨keeps_mkdirs (placed.split stays (by decide)),
      keeps_fromBuild placed stays _ _ (by decide), keeps_fromBuild placed stays _ _ (by decide),
      keeps_cp (placed.split stays (by decide))⟩

theorem keeps_copyHeaders : ∀ c ∈ copyHeaders kit v p cwd, Keeps rs ds c := by
  rw [copyHeaders, List.forall_mem_append, List.forall_mem_append, List.forall_mem_append,
    List.forall_mem_map, List.forall_mem_map]
  have copies : ∀ {source : Arg}, Keeps rs ds
      (cp (α := α) cwd false [source] (.split (sub (localTarget v p) "lib/"))) :=
    keeps_cp (placed.split stays (by decide))
  refine ⟨⟨⟨fun _ _ => keeps_headerDir placed stays, fun _ _ => keeps_headerFiles placed stays⟩,
    ?_⟩, ?_⟩
  · split
    · rw [List.forall_mem_cons, List.forall_mem_singleton]
      exact ⟨keeps_headerFiles placed stays, keeps_given (List.forall_mem_singleton.mpr copies)⟩
    · exact List.forall_mem_nil _
  · rw [List.forall_mem_cons, List.forall_mem_cons, List.forall_mem_singleton]
    exact ⟨keeps_headerDir placed stays, keeps_given (keeps_copyProtobuf placed stays),
      keeps_given
        (List.forall_mem_singleton.mpr (keeps_fromBuild placed stays _ _ (by decide)))⟩

/-- **The libraries** go below the package. -/
theorem keeps_copyLibs : Keeps rs ds (copyLibs kit v p cwd) := by
  constructor
  intro s dirs
  unfold copyLibs
  split
  · exact (keeps_cp (placed.split stays (by decide))).ends s dirs
  · refine (keeps_run ?_).ends s dirs
    rw [List.forall_mem_cons, List.forall_mem_singleton]
    refine ⟨keeps_cp (placed.split stays (by decide)), keeps_each fun i => ?_⟩
    refine keeps_given (List.forall_mem_singleton.mpr (keeps_cp ?_))
    rw [sub, List.append_assoc]
    exact placed.quoted stays _

/-- What fills the package up to the libraries. -/
theorem keeps_filling (apart : ∀ full t u, kit.boost full t = some u →
    ∀ d ∈ ds, t.isDir d = true → u.isDir d = true) :
    ∀ c ∈ filling kit v p cwd, Keeps rs ds c := by
  rw [filling, List.forall_mem_append, List.forall_mem_append, List.forall_mem_append,
    List.forall_mem_append]
  refine ⟨⟨⟨⟨keeps_layout placed stays, keeps_copyMapnik placed stays⟩,
    keeps_copyBoost placed stays apart⟩, ?_⟩, keeps_copyHeaders placed stays⟩
  split
  · exact keeps_copyFull placed stays
  · exact List.forall_mem_nil _

omit stays in
/-- **Before the libraries** nothing else is written. -/
theorem keeps_prepare (apart : ∀ full t u, kit.boost full t = some u →
    t.isDir dist = true → u.isDir dist = true) : Keeps rs [dist] (prepare kit v p cwd) := by
  have filled := keeps_filling placed (List.mem_singleton_self dist) fun full t u made d hd =>
    List.mem_singleton.mp hd ▸ apart full t u made
  apply keeps_run
  rw [List.forall_mem_append]
  exact ⟨keeps_clear placed, filled⟩

end Parts

/-! ### A run on a platform -/

/-- `out/dist` -/
def distDir (m : Machine) : Path := components m.rootdir.toList ++ ["out".toList, "dist".toList]

/-- What a run is given: the checkout lies at a path from the root, its name and that of the package
are words, and `build_boost.sh` writes at the places. -/
structure Orderly (kit : Kit α) (m : Machine) (p : Packaging) (places : List Path) : Prop where
  absolute : m.rootdir.toList.head? = some '/'
  bare : Bare m.rootdir.toList
  named : ∀ a d, kit.config a "--git-describe" = some d →
    Bare ({ p with describe := d } : Packaging).packageName.toList
  boost : ∀ full t u, kit.boost full t = some u → FileTree.AgreeOutside places t u
  /-- none of them in `out/dist` or above it -/
  apart : ∀ r ∈ places, ∀ q, ¬ r <+: distDir m ++ q

section Platforms

variable {m : Machine} {P : Platform} {places : List Path} {start : Path}

theorem resolve_absolute {text : List Char} (absolute : text.head? = some '/') (cwd : Path) :
    resolve cwd text = components text := by
  rw [resolve, if_pos absolute]

theorem outDir_eq (absolute : m.rootdir.toList.head? = some '/') (cwd : Path) :
    Universal.outDir m cwd = components m.rootdir.toList ++ ["out".toList] := by
  have nonempty : m.rootdir.toList ≠ [] := by
    intro empty
    rw [empty] at absolute
    cases absolute
  rw [Universal.outDir, resolve_end cwd nonempty, resolve_absolute absolute]

theorem distDir_eq (absolute : m.rootdir.toList.head? = some '/') (cwd : Path) :
    distDir m = Universal.outDir m cwd ++ ["dist".toList] := by
  rw [outDir_eq absolute, distDir, List.append_assoc]
  rfl

/-- The prefixes do not depend on where the script starts, -/
theorem at_absolute (absolute : m.rootdir.toList.head? = some '/') (a : String) (r : Path) :
    Universal.at_ m P cwd a r = Universal.at_ m P start a r := by
  rw [Universal.at_, Universal.at_, outDir_eq absolute, outDir_eq absolute]

/-- and lie beside `dist`. -/
theorem dist_apart (absolute : m.rootdir.toList.head? = some '/') (a : String) (r q : Path) :
    ¬ distDir m ++ r <+: Universal.at_ m P start a q := by
  have other : "dist".toList ≠ Universal.entry P a := by
    intro same
    have dash : '-' ∈ "dist".toList := by simp [same, Universal.entry]
    exact absurd dash (by decide)
  rw [distDir_eq absolute start, Universal.at_, List.append_assoc, List.prefix_append_right_inj,
    List.singleton_append, List.cons_prefix_cons]
  exact fun h => other h.1

theorem resolve_universal (absolute : m.rootdir.toList.head? = some '/') :
    resolve cwd (P.site m).build_universal.toList = Universal.at_ m P start "universal" [] := by
  have here : resolve cwd (P.site m).build_universal.toList
      = Universal.at_ m P cwd "universal" [] := Universal.resolve_build_universal
  rw [here, at_absolute absolute]

/-- A directory in `out`, by the text of its path. -/
theorem resolve_in_out (absolute : m.rootdir.toList.head? = some '/') {n : Name}
    (name : Single n) : resolve cwd (Universal.below m n)
      = components m.rootdir.toList ++ ["out".toList, n] := by
  rw [Universal.resolve_below, outDir_eq absolute, components_of_single name, List.append_assoc]
  rfl

theorem below_ne_nil (n : Name) : Universal.below m n ≠ [] := by simp [Universal.below]

theorem dist_text : (P.site m).mapnik_dist.toList = Universal.below m "dist".toList := by
  simp [Platform.site, Universal.below]

theorem dist_ne_nil : (P.site m).mapnik_dist.toList ≠ [] := by
  rw [dist_text]
  exact below_ne_nil _

theorem resolve_dist (absolute : m.rootdir.toList.head? = some '/') :
    resolve cwd (P.site m).mapnik_dist.toList = distDir m := by
  rw [dist_text, resolve_in_out absolute (by decide), distDir]

theorem resolve_dist_slash (absolute : m.rootdir.toList.head? = some '/') (rest : List Char) :
    resolve cwd ((P.site m).mapnik_dist.toList ++ '/' :: rest) = distDir m ++ components rest := by
  rw [resolve_slash, resolve_end cwd dist_ne_nil, resolve_dist absolute]

theorem bare_dist (bare : Bare m.rootdir.toList) : Bare (P.site m).mapnik_dist.toList := by
  rw [dist_text]
  exact Universal.bare_below bare (by decide)

/-- The name of a package begins with a letter. -/
theorem packageName_text (p : Packaging) : ∃ rest, p.packageName.toList = 'm' :: rest := by
  simp [Packaging.packageName, String.toList_append]

/-- The entry of `dist` that the package lies in. -/
def topDir (p : Packaging) : Name := (components p.packageName.toList).headD []

theorem components_packageName (p : Packaging) :
    ∃ more, components p.packageName.toList = topDir p :: more := by
  obtain ⟨rest, text⟩ := packageName_text p
  have nonempty : components p.packageName.toList ≠ [] := by
    rw [text]
    exact components_ne_nil (by decide)
  obtain ⟨top, more, split⟩ := List.exists_cons_of_ne_nil nonempty
  exact ⟨more, by rw [topDir, split]; rfl⟩

/-- Where the package is filled. -/
def written (kit : Kit α) (m : Machine) (p : Packaging) (places : List Path) : List Path :=
  (distDir m ++ [topDir p]) :: resolve (distDir m) kit.staging :: places

theorem localTarget_text (v : Site) (p : Packaging) :
    (localTarget v p).toList = v.mapnik_dist.toList ++ '/' :: p.packageName.toList := by
  simp [localTarget]

theorem Orderly.placed (orderly : Orderly kit m p places) (bare : Bare p.packageName.toList) :
    Placed kit (P.site m) p (distDir m) (distDir m) (written kit m p places) := by
  obtain ⟨more, split⟩ := components_packageName p
  refine ⟨?_, ⟨topDir p, more, ?_, List.mem_cons_self⟩, ?_, fun full t u made => ?_⟩
  · rw [localTarget_text]
    exact (bare_dist orderly.bare).append (bare.cons (by decide))
  · have nonempty : (localTarget (P.site m) p).toList ≠ [] := by simp [localTarget]
    rw [resolve_end _ nonempty, localTarget_text, resolve_dist_slash orderly.absolute, split]
  · exact ⟨_, List.mem_cons_of_mem _ List.mem_cons_self, List.prefix_refl _⟩
  · refine (orderly.boost full t u made).mono fun r hr => ⟨r, ?_, List.prefix_refl r⟩
    exact List.mem_cons_of_mem _ (List.mem_cons_of_mem _ hr)

/-- `build_boost.sh` leaves `dist` alone. -/
theorem Orderly.isDir_boost (orderly : Orderly kit m p places) {full : Bool}
    (made : kit.boost full t = some u) (q : Path) :
    u.isDir (distDir m ++ q) = t.isDir (distDir m ++ q) :=
  (orderly.boost full t u made).isDir fun r hr => orderly.apart r hr q

theorem Orderly.keeps_prepare (orderly : Orderly kit m p places)
    (bare : Bare p.packageName.toList) : Keeps (written kit m p places) [distDir m]
      (prepare kit (P.site m) p (distDir m)) :=
  Sdk.keeps_prepare (orderly.placed bare) fun full t u made dir => by
    have below := orderly.isDir_boost made []
    rw [List.append_nil] at below
    rw [below, dir]

/-- `lib` of the package -/
def libDir (m : Machine) (p : Packaging) : Path :=
  distDir m ++ components p.packageName.toList ++ ["lib".toList]

theorem resolve_package (absolute : m.rootdir.toList.head? = some '/') (rest : String) :
    resolve cwd (sub (localTarget (P.site m) p) rest)
      = distDir m ++ components p.packageName.toList ++ components rest.toList := by
  have text : sub (localTarget (P.site m) p) rest = (P.site m).mapnik_dist.toList ++
      '/' :: (p.packageName.toList ++ '/' :: rest.toList) := by
    rw [sub, localTarget_text, List.append_assoc, List.cons_append]
  rw [text, resolve_dist_slash absolute, components_slash, List.append_assoc]

theorem resolve_lib (absolute : m.rootdir.toList.head? = some '/') :
    resolve cwd (sub (localTarget (P.site m) p) "lib") = libDir m p := by
  have lib : components "lib".toList = ["lib".toList] := by decide
  rw [resolve_package absolute, lib, libDir]

theorem resolve_lib_slash (absolute : m.rootdir.toList.head? = some '/') :
    resolve cwd (sub (localTarget (P.site m) p) "lib/") = libDir m p := by
  have lib : components "lib/".toList = ["lib".toList] := by decide
  rw [resolve_package absolute, lib, libDir]

/-- A path in the package is one word. -/
theorem Orderly.package_words (orderly : Orderly kit m p places)
    (bare : Bare p.packageName.toList) {rest : String} (plain : Bare rest.toList) {β : Type}
    (t : FileTree β) : (Arg.split (sub (localTarget (P.site m) p) rest)).words t cwd
      = [sub (localTarget (P.site m) p) rest] :=
  unquoted_bare (by simp [sub])
    ((orderly.placed (P := P) bare).bare.append (plain.cons (by decide)))

/-- `lib` is made first. -/
theorem filling_eq (kit : Kit α) (v : Site) (p : Packaging) (cwd : Path) : filling kit v p cwd =
    mkdir cwd (.split (sub (localTarget v p) "lib")) :: (filling kit v p cwd).tail := rfl

/-- **The package has its `lib`** when the libraries are copied. -/
theorem Orderly.isDir_lib (orderly : Orderly kit m p places) (bare : Bare p.packageName.toList)
    {s' : Packing α} (dir : s.tree.isDir (distDir m) = true)
    (ran : prepare kit (P.site m) p (distDir m) s = .ok s') :
    s'.tree.isDir (libDir m p) = true := by
  have placed := orderly.placed (P := P) bare
  have stays : distDir m ∈ [distDir m, libDir m p] := by simp
  have stay : ∀ full t u, kit.boost full t = some u →
      ∀ d ∈ [distDir m, libDir m p], t.isDir d = true → u.isDir d = true := by
    intro full t u made d hd there
    obtain ⟨q, rfl⟩ : ∃ q, d = distDir m ++ q := by
      rcases List.mem_cons.mp hd with rfl | hd
      · exact ⟨[], by simp⟩
      · exact ⟨components p.packageName.toList ++ ["lib".toList],
          by rw [List.mem_singleton.mp hd, libDir, List.append_assoc]⟩
    rw [orderly.isDir_boost made, there]
  have filled := keeps_filling placed stays stay
  rw [filling_eq, List.forall_mem_cons] at filled
  rw [prepare, run_append, bind_eq_ok] at ran
  obtain ⟨s₁, cleared, ran⟩ := ran
  rw [filling_eq, run_cons, bind_eq_ok] at ran
  obtain ⟨s₂, made, ran⟩ := ran
  have dirs : ∀ d ∈ [distDir m], s.tree.isDir d = true := by simpa using dir
  have h₁ := (keeps_run (keeps_clear placed)).of_ok dirs cleared
  have below : (Arg.split (sub (localTarget (P.site m) p) "lib")).Below
      (written kit m p places) [distDir m] (distDir m) :=
    placed.split (List.mem_singleton_self _) (by decide)
  have h₂ := (keeps_mkdir below).of_ok h₁.dirs made
  have there := isDir_of_mkdir (orderly.package_words bare (by decide)) made
  rw [resolve_lib orderly.absolute] at there
  have h₃ := (keeps_run filled.2).of_ok (by simpa [there] using h₂.dirs) ran
  exact h₃.dirs _ (by simp)

/-- The words of `${TARBALL_NAME}*` lie in the current directory. -/
theorem tarballs_here (bare : Bare p.packageName.toList) {w : List Char}
    (hw : w ∈ unquoted t cwd (p.tarballName.toList ++ ['*'])) : cwd <+: resolve cwd w := by
  have text : p.tarballName.toList ++ ['*'] = p.packageName.toList ++ ".tar*".toList := by
    simp [Packaging.tarballName]
  obtain ⟨rest, name⟩ := packageName_text p
  have tail : ∀ c ∈ ".tar*".toList, isBlank c = false := unblank_of_all (by decide)
  rw [text] at hw
  have blanks : ∀ c ∈ p.packageName.toList ++ ".tar*".toList, isBlank c = false := fun c hc =>
    (List.mem_append.mp hc).elim (fun hc => (bare c hc).1) (tail c)
  have relative := relative_of_unquoted (by simp [name]) (by simp [name]) blanks hw
  rw [resolve, if_neg relative]
  exact List.prefix_append _ _

/-- The tarball and `VERSION` lie below `dist`. -/
theorem Orderly.keeps_finish (orderly : Orderly kit m p places)
    (bare : Bare p.packageName.toList) :
    Keeps [distDir m] [] (finish kit (P.site m) p (distDir m)) := by
  have below : ∀ rest, ∃ r ∈ [distDir m], r <+:
      resolve (distDir m) ((P.site m).mapnik_dist.toList ++ '/' :: rest) := fun rest =>
    ⟨_, List.mem_singleton_self _,
      by rw [resolve_dist_slash orderly.absolute]; exact List.prefix_append _ _⟩
  have words : ∀ t : FileTree α, ∀ w ∈ (Arg.split (p.tarballName.toList ++ ['*'])).words t
      (distDir m), ∃ r ∈ [distDir m], r <+: resolve (distDir m) w := fun t w hw =>
    ⟨_, List.mem_singleton_self _, tarballs_here bare hw⟩
  apply keeps_run
  rw [List.forall_mem_cons, List.forall_mem_cons, List.forall_mem_singleton]
  refine ⟨keeps_rm words, keeps_redirect ?_, keeps_redirect (below _)⟩
  rw [sub, localTarget_text, List.append_assoc, List.cons_append]
  exact below _

/-! ### Into `dist` -/

/-- The first step makes `dist`. -/
theorem mkdirs_dist (orderly : Orderly kit m p places) (s : Packing α) :
    mkdirs start (.split (P.site m).mapnik_dist.toList) s =
      change (fun t => t.mkdirs (distDir m)) s := by
  have words : (Arg.split (P.site m).mapnik_dist.toList).words s.tree start
      = [(P.site m).mapnik_dist.toList] := unquoted_bare dist_ne_nil (bare_dist orderly.bare)
  simp only [mkdirs, change, words, List.foldlM_cons, List.foldlM_nil, bind_pure,
    resolve_dist orderly.absolute]

theorem package_eq (orderly : Orderly kit m p places) (s : Packing α) :
    package kit (P.site m) p start s =
      change (fun t => t.mkdirs (distDir m)) s >>= described kit (P.site m) p (distDir m) := by
  rw [package, mkdirs_dist orderly, resolve_dist orderly.absolute]

theorem isDir_of_change {s' : Packing α}
    (ran : change (fun t => t.mkdirs (distDir m)) s = .ok s') :
    s'.tree.isDir (distDir m) = true := by
  obtain ⟨u, made, rfl⟩ := change_ok ran
  exact FileTree.isDir_of_mkdirs made

theorem keeps_dist (orderly : Orderly kit m p places) :
    Keeps (α := α) [distDir m] [Universal.outDir m start]
      (change fun t => t.mkdirs (distDir m)) := by
  refine keeps_change (fun t u dirs made => ?_) fun t u made d _ => FileTree.mkdirs_isDir made
  rw [distDir_eq orderly.absolute start] at made ⊢
  exact mkdirs_outside (dirs _ (by simp)) (by simp) made

/-- The assumptions do not speak of the description that is to be asked for. -/
theorem Orderly.described (orderly : Orderly kit m p places) (describe : String) :
    Orderly kit m { p with describe := describe } places :=
  ⟨orderly.absolute, orderly.bare, orderly.named, orderly.boost, orderly.apart⟩

end Platforms

/-! ### A run in a checkout -/

/-- A `mapnik-config` that knows its sources, and tools that succeed. -/
def packageKit : Kit String where
  config _ option := if option = "--dep-libs" then some "-lz" else some "v3.0.0"
  sed _ text := some text
  dialect := ⟨false⟩
  boost _ t := some t
  staging := "/tmp/stage-mapnik-XXX.9d1a".toList
  protoc := none
  date := "Thu"
  lines ls := "\n".intercalate ls
  tar _ _ := some "tarball"
  publish := some "true"
  fetched := some "sources"
  unpack d t := t.mkdir (d ++ ["s3cmd-1.5.0-beta1".toList])
  s3cmd _ := true
  home := "/home/builder".toList
  access_key := some "id"
  secret_key := some "secret"

theorem packageKit_orderly : Orderly packageKit Universal.buildBox deviceRun [] where
  absolute := by decide
  bare := by decide
  named a d printed := by
    obtain rfl : "v3.0.0" = d := Option.some.inj printed
    decide
  boost full t u made := by
    obtain rfl : t = u := Option.some.inj made
    exact .refl [] t
  apart := by simp

end MapnikPackaging.Sdk
