/-
What `package_mobile_sdk.sh` leaves alone.

Beside the package a run that publishes writes what `s3cmd` is fetched with into `out/packages`, and
the keys into `~/.s3cfg`. Paths are read as they are written, so those that lead through `.` or `..`
are left out.

* `Orderly.upload_outside` — the upload.
* `package_elsewhere` — the whole script, wherever it stops.
-/

import MapnikPackaging.Sdk.Frame

namespace MapnikPackaging.Sdk

open Files Shell

variable {α : Type} {kit : Kit α} {v : Site} {p : Packaging} {cwd : Path} {rs : List Path}
  {t : FileTree α} {s : Packing α}

/-! ### Steps that may stop -/

/-- Whether it stops or not, a step changes the tree at the places only. -/
def Stays (rs : List Path) (c : Step α) : Prop :=
  ∀ s, FileTree.AgreeOutside rs s.tree (left (c s)).tree

theorem Keeps.stays {c : Step α} (h : Keeps rs [] c) : Stays rs c := fun s =>
  Ends.left (J := fun s' => FileTree.AgreeOutside rs s.tree s'.tree)
    ((h.ends s (by simp)).mono (fun _ kept => kept.outside) fun _ kept => kept.outside)

theorem stays_run {steps : List (Step α)} (each : ∀ c ∈ steps, Stays rs c) :
    Stays rs (run steps) := by
  intro s
  induction steps generalizing s with
  | nil => exact .refl rs s.tree
  | cons c steps ih =>
    have first := each c List.mem_cons_self s
    rw [run_cons]
    cases ran : c s with
    | error s' =>
      rw [ran] at first
      exact first
    | ok s' =>
      rw [ran] at first
      exact first.trans (ih (fun d hd => each d (List.mem_cons_of_mem c hd)) s')

theorem stays_enter {a : Arg} {next : Path → Step α}
    (there : ∀ (t : FileTree α) (w : List Char), a.words t cwd = [w] →
      Stays rs (next (resolve cwd w))) : Stays rs (enter cwd a next) := by
  intro s
  unfold enter
  split
  · next w one =>
    split
    · exact there s.tree w one s
    · exact .refl rs s.tree
  · exact .refl rs s.tree

theorem stays_configure (absolute : kit.home.head? = some '/')
    (listed : components (s3cfg kit) ∈ rs) : Stays rs (configure kit cwd) := by
  have file : resolve cwd (s3cfg kit) = components (s3cfg kit) := by
    apply resolve_absolute
    rw [s3cfg, List.head?_append, absolute]
    rfl
  have writes : ∀ f : FileTree α → Option α, Keeps rs [] (redirect cwd f (s3cfg kit)) :=
    fun f => keeps_redirect ⟨_, listed, by rw [file]⟩
  intro s
  unfold configure
  split
  · exact .refl rs s.tree
  · exact (writes _).stays s

theorem stays_put : Stays rs (put kit v p cwd) := by
  intro s
  unfold put
  split
  · split
    · exact .refl rs s.tree
    · exact .refl rs s.tree
  · exact .refl rs s.tree

/-- What is fetched comes into the directory that is entered. -/
theorem stays_fetch {next : Path → Step α} {root : Path}
    (entered : ∀ (t : FileTree α) (w : List Char),
      (Arg.split v.packages.toList).words t cwd = [w] → resolve cwd w = root)
    (unpack : ∀ d t u, kit.unpack d t = some u → FileTree.AgreeOutside [d] t u)
    (listed : root ∈ rs) (after : ∀ dir, Stays rs (next dir)) :
    Stays rs (fetchS3cmd kit v cwd next) := by
  intro s
  unfold fetchS3cmd
  split
  · exact after cwd s
  · refine stays_enter (fun t w one => ?_) s
    rw [entered t w one]
    apply stays_run
    rw [List.forall_mem_cons, List.forall_mem_cons, List.forall_mem_singleton]
    refine ⟨(keeps_redirect ⟨root, listed, ?_⟩).stays,
      (keeps_change (fun t u _ made => ?_) (by simp)).stays, after root⟩
    · rw [resolve, if_neg (by decide)]
      exact List.prefix_append _ _
    · exact (unpack root t u made).mono fun r hr =>
        ⟨root, listed, by rw [List.mem_singleton.mp hr]⟩

/-! ### Where a run writes -/

/-- `out/packages` -/
def packagesDir (m : Machine) : Path :=
  components m.rootdir.toList ++ ["out".toList, "packages".toList]

/-- No path that a run is given leads through `.` or `..`, and `tar` unpacks below the directory it
is run in. -/
structure Straight (kit : Kit α) (p : Packaging) : Prop where
  named : ∀ a d, kit.config a "--git-describe" = some d →
    Dotless ({ p with describe := d } : Packaging).packageName.toList
  /-- what `mapnik-config` prints are no paths -/
  libs : ∀ a d, kit.config a "--dep-libs" = some d → '/' ∉ d.toList
  staging : Dotless kit.staging
  protoc : ∀ file, kit.protoc = some file → Bare file ∧ Dotless file
  home : kit.home.head? = some '/' ∧ Dotless kit.home
  unpack : ∀ d t u, kit.unpack d t = some u → FileTree.AgreeOutside [d] t u

/-- Where the upload writes: in the packages, and the keys. -/
def published (kit : Kit α) (m : Machine) : List Path :=
  if orWord kit.publish "false" = "false" then []
  else [packagesDir m, components (s3cfg kit)]

/-- Where a whole run writes. -/
def touched (kit : Kit α) (m : Machine) (places : List Path) : List Path :=
  distDir m :: resolve (distDir m) kit.staging :: (places ++ published kit m)

section Platforms

variable {m : Machine} {P : Platform} {places : List Path} {start : Path}

theorem written_touched (kit : Kit α) (p : Packaging) :
    ∀ r ∈ written kit m p places, ∃ q ∈ touched kit m places, q <+: r := by
  intro r hr
  rcases List.mem_cons.mp hr with rfl | hr
  · exact ⟨_, List.mem_cons_self, List.prefix_append _ _⟩
  · have mem : r ∈ resolve (distDir m) kit.staging :: places ++ published kit m :=
      List.mem_append_left _ hr
    exact ⟨r, List.mem_cons_of_mem _ mem, List.prefix_refl r⟩

theorem dist_touched (kit : Kit α) (places : List Path) :
    ∀ r ∈ [distDir m], ∃ q ∈ touched kit m places, q <+: r :=
  fun r hr => ⟨r, by simp [touched, List.mem_singleton.mp hr], List.prefix_refl r⟩

/-! ### The upload -/

theorem packages_text : (P.site m).packages.toList = Universal.below m "packages".toList := by
  simp [Platform.site, Universal.below]

theorem packages_ne_nil : (P.site m).packages.toList ≠ [] := by
  rw [packages_text]
  exact below_ne_nil _

theorem resolve_packages (absolute : m.rootdir.toList.head? = some '/') :
    resolve cwd (P.site m).packages.toList = packagesDir m := by
  rw [packages_text, resolve_in_out absolute (by decide), packagesDir]

theorem bare_packages (bare : Bare m.rootdir.toList) : Bare (P.site m).packages.toList := by
  rw [packages_text]
  exact Universal.bare_below bare (by decide)

/-- **An upload writes nothing** but what fetches `s3cmd`, and its keys. -/
theorem Orderly.upload_outside (orderly : Orderly kit m p places) (straight : Straight kit p)
    (out : s.tree.isDir (Universal.outDir m start) = true) :
    FileTree.AgreeOutside (published kit m) s.tree
      (left (upload kit (P.site m) p cwd s)).tree := by
  unfold upload published
  split
  · exact .refl _ s.tree
  have parent : packagesDir m = Universal.outDir m start ++ "packages".toList :: [] := by
    rw [outDir_eq orderly.absolute, packagesDir, List.append_assoc]
    rfl
  have bare := bare_packages (P := P) orderly.bare
  have below : (Arg.split ((P.site m).packages.toList ++ ['/'])).Below
      [packagesDir m, components (s3cfg kit)] [Universal.outDir m start] cwd := by
    refine ⟨_, fun t => unquoted_bare (by simp) (bare.append (by decide)), _, _, [], ?_,
      List.mem_cons.mpr (.inl parent.symm), List.mem_singleton_self _⟩
    rw [resolve_end cwd packages_ne_nil, resolve_packages orderly.absolute, parent]
  have first := (keeps_mkdirs (α := α) below).ends s (by simpa using out)
  have rest : Stays [packagesDir m, components (s3cfg kit)] (run [fetchS3cmd kit (P.site m) cwd
      fun dir => enter dir (.split (s3cmdDir (P.site m))) fun dir =>
        enter dir (.split (pwd cwd)) fun dir =>
          run [configure kit dir, put kit (P.site m) p dir]]) := by
    apply stays_run
    rw [List.forall_mem_singleton]
    refine stays_fetch (fun t w one => ?_) straight.unpack List.mem_cons_self fun dir =>
      stays_enter fun _ _ _ => stays_enter fun _ _ _ => stays_run ?_
    · rw [Arg.words, unquoted_bare packages_ne_nil bare] at one
      rw [← (List.cons.inj one).1, resolve_packages orderly.absolute]
    · rw [List.forall_mem_cons, List.forall_mem_singleton]
      exact ⟨stays_configure straight.home.1 (by simp), stays_put⟩
  rw [ensureS3cmd, run_cons]
  cases made : mkdirs cwd (.split ((P.site m).packages.toList ++ ['/'])) s with
  | error s' =>
    rw [made] at first
    exact first.outside
  | ok s' =>
    rw [made] at first
    exact first.outside.trans (rest s')

/-! ### The whole script -/

theorem published_touched (kit : Kit α) (places : List Path) :
    ∀ r ∈ published kit m, ∃ q ∈ touched kit m places, q <+: r := by
  intro r hr
  have mem : r ∈ resolve (distDir m) kit.staging :: places ++ published kit m :=
    List.mem_append_right _ hr
  exact ⟨r, List.mem_cons_of_mem _ mem, List.prefix_refl r⟩

/-- What the package is filled with lies below `dist`, or where a helper writes. -/
theorem Orderly.fill_outside (orderly : Orderly kit m p places) (straight : Straight kit p)
    (bare : Bare p.packageName.toList) (dir : s.tree.isDir (distDir m) = true) :
    FileTree.AgreeOutside (touched kit m places) s.tree
      (left (fill kit (P.site m) p (distDir m) s)).tree := by
  have stays : distDir m ∈ [distDir m] := List.mem_singleton_self _
  have wider : ∀ {s s' : Packing α}, Kept (written kit m p places) [distDir m] s s' →
      FileTree.AgreeOutside (touched kit m places) s.tree s'.tree := fun h =>
    h.outside.mono (written_touched kit p)
  refine (orderly.keeps_prepare (P := P) bare).then (J := FileTree.AgreeOutside _ s.tree)
    (by simpa using dir) (fun _ => wider) fun s₁ _ h₁ => ?_
  refine (keeps_copyLibs (orderly.placed (P := P) bare) stays).then
    (J := FileTree.AgreeOutside _ s.tree) h₁.dirs (fun _ h => (wider h₁).trans (wider h))
    fun s₂ _ h₂ => ?_
  have before := (wider h₁).trans (wider h₂)
  refine (orderly.keeps_finish (P := P) bare).then (J := FileTree.AgreeOutside _ s.tree)
    (by simp) (fun _ h => before.trans (h.outside.mono (dist_touched kit places)))
    fun s₃ _ h₃ => ?_
  -- the tarball lies below `out`, which stays
  have below : distDir m = Universal.outDir m [] ++ ["dist".toList] :=
    distDir_eq orderly.absolute []
  have out : s₃.tree.isDir (Universal.outDir m []) = true := by
    rw [h₃.outside.isDir]
    · exact FileTree.isDir_of_below ⟨_, below.symm⟩ (h₂.dirs _ stays)
    · intro r hr le
      have short := le.length_le
      rw [List.mem_singleton.mp hr, below] at short
      simp at short
  have loaded : FileTree.AgreeOutside (published kit m) s₃.tree
      (left (upload kit (P.site m) p (distDir m) s₃)).tree := orderly.upload_outside straight out
  exact (before.trans (h₃.outside.mono (dist_touched kit places))).trans
    (loaded.mono (published_touched kit places))

/-- The conditions do not speak of the description that is to be asked for. -/
theorem Straight.described (straight : Straight kit p) (describe : String) :
    Straight kit { p with describe := describe } :=
  ⟨straight.named, straight.libs, straight.staging, straight.protoc, straight.home,
    straight.unpack⟩

end Platforms

/-! ### A run in a checkout -/

theorem packageKit_straight : Straight packageKit deviceRun where
  named a d printed := by
    obtain rfl : "v3.0.0" = d := Option.some.inj printed
    decide
  libs a d printed := by
    obtain rfl : "-lz" = d := Option.some.inj printed
    decide
  staging := by decide
  protoc := nofun
  home := by decide
  unpack d t u made := (FileTree.mkdir_agreeOff made).outside
    ⟨d, List.mem_singleton_self d, List.prefix_append _ _⟩

end MapnikPackaging.Sdk
