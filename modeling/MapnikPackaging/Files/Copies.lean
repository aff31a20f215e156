/-
Copies.

`copyAll` is `cp` with its operands: each goes into the directory that is named last, or onto the
path if there is none. Without `-r` an operand that is a directory fails; what fails is passed
over, and the command fails with it.

* `copyAll_agreeOff` — nothing changes but below the target.
* `copyAll_succeeds_iff` — when files go into a directory.
* `copyAll_content` — what is there then, whether the command has failed or not.
-/

import MapnikPackaging.Files.Tree

namespace Files.FileTree

variable {α : Type} {t u v : FileTree α} {p q src dst : Path} {ps rs : List Path} {n : Name}
  {deep : Bool}

/-! ### Trees that agree outside of some places -/

/-- The trees differ at most at the places and below them. -/
def AgreeOutside (rs : List Path) (t u : FileTree α) : Prop :=
  ∀ q, (∀ r ∈ rs, ¬ r <+: q) → u.node q = t.node q

theorem AgreeOutside.refl (rs : List Path) (t : FileTree α) : AgreeOutside rs t t := fun _ _ => rfl

theorem AgreeOutside.trans (first : AgreeOutside rs t u) (second : AgreeOutside rs u v) :
    AgreeOutside rs t v := fun q hq => (second q hq).trans (first q hq)

/-- A change below one of the places. -/
theorem AgreeOff.outside (h : AgreeOff p t u) (listed : ∃ r ∈ rs, r <+: p) :
    AgreeOutside rs t u := by
  intro q hq
  obtain ⟨r, hr, le⟩ := listed
  exact h q fun below => hq r hr (le.trans below)

theorem AgreeOutside.mono {places : List Path} (h : AgreeOutside rs t u)
    (covered : ∀ r ∈ rs, ∃ p ∈ places, p <+: r) : AgreeOutside places t u := by
  intro q hq
  apply h q
  intro r hr below
  obtain ⟨p, hp, le⟩ := covered r hr
  exact hq p hp (le.trans below)

theorem AgreeOutside.isDir (h : AgreeOutside rs t u) (hq : ∀ r ∈ rs, ¬ r <+: q) :
    u.isDir q = t.isDir q := by
  rw [FileTree.isDir, FileTree.isDir, h q hq]

theorem AgreeOutside.content (h : AgreeOutside rs t u) (hq : ∀ r ∈ rs, ¬ r <+: q) :
    u.content q = t.content q := by
  rw [FileTree.content, FileTree.content, h q hq]

/-- One change after another. -/
theorem AgreeOutside.foldlM {β : Type} {f : FileTree α → β → Option (FileTree α)} {xs : List β}
    (each : ∀ x ∈ xs, ∀ t u, f t x = some u → AgreeOutside rs t u) (h : xs.foldlM f t = some u) :
    AgreeOutside rs t u := by
  induction xs generalizing t with
  | nil =>
    obtain rfl : t = u := Option.some.inj h
    exact .refl rs t
  | cons x xs ih =>
    rw [List.foldlM_cons] at h
    obtain ⟨w, first, rest⟩ := Option.bind_eq_some_iff.mp h
    have tail := ih (fun y hy => each y (List.mem_cons_of_mem x hy)) rest
    exact (each x (by simp) t w first).trans tail

/-! ### One operand -/

/-- Where an operand goes. -/
def landing (t : FileTree α) (dst src : Path) : Path :=
  if t.isDir dst then dst ++ src.getLast?.toList else dst

theorem prefix_landing : dst <+: t.landing dst src := by
  unfold landing
  split
  · exact List.prefix_append dst _
  · exact List.prefix_refl dst

theorem landing_of_isDir (dir : t.isDir dst = true) : t.landing dst (p ++ [n]) = dst ++ [n] := by
  rw [landing, if_pos dir, List.getLast?_concat]
  rfl

/-- One operand of `cp`, or of `cp -r`; not onto itself, and no directory into itself. -/
def copyOne (deep : Bool) (t : FileTree α) (dst src : Path) : Option (FileTree α) :=
  if t.isDir src then
    if deep = true ∧ ¬ src <+: t.landing dst src then t.merge src (t.landing dst src) else none
  else if src = t.landing dst src then none
  else (t.content src).bind fun a => t.write (t.landing dst src) a

theorem copyOne_agreeOff (h : t.copyOne deep dst src = some u) : AgreeOff dst t u := by
  unfold copyOne at h
  split at h
  · split at h
    · exact (merge_agreeOff h).above prefix_landing
    · cases h
  · split at h
    · cases h
    · obtain ⟨a, -, written⟩ := Option.bind_eq_some_iff.mp h
      exact (write_agreeOff written).above prefix_landing

/-- No directory goes. -/
theorem copyOne_isDir (h : t.copyOne deep dst src = some u) (dir : t.isDir q = true) :
    u.isDir q = true := by
  unfold copyOne at h
  split at h
  · split at h
    · by_cases below : t.landing dst src <+: q
      · obtain ⟨r, rfl⟩ := below
        rw [merge_isDir h, dir, Bool.or_true]
      · rw [(merge_agreeOff h).isDir below, dir]
    · cases h
  · split at h
    · cases h
    · obtain ⟨a, -, written⟩ := Option.bind_eq_some_iff.mp h
      rw [write_isDir written, dir]

/-! ### All operands -/

/-- The tree that is left, and whether the command succeeds. -/
def copyAll (deep : Bool) (t : FileTree α) (dst : Path) : List Path → FileTree α × Bool
  | [] => (t, true)
  | p :: ps =>
    match t.copyOne deep dst p with
    | some u => u.copyAll deep dst ps
    | none => ((t.copyAll deep dst ps).1, false)

theorem copyAll_agreeOff : AgreeOff dst t (t.copyAll deep dst ps).1 := by
  induction ps generalizing t with
  | nil => exact AgreeOff.refl dst t
  | cons p ps ih =>
    unfold copyAll
    cases one : t.copyOne deep dst p with
    | some u => exact (copyOne_agreeOff one).trans ih
    | none => exact ih

theorem copyAll_dirs (dir : t.isDir q = true) :
    (t.copyAll deep dst ps).1.isDir q = true := by
  induction ps generalizing t with
  | nil => exact dir
  | cons p ps ih =>
    unfold copyAll
    cases one : t.copyOne deep dst p with
    | some u => exact ih (copyOne_isDir one dir)
    | none => exact ih dir

/-- Files alone make no directory. -/
theorem copyOne_file_isDir (h : t.copyOne false dst src = some u) : u.isDir q = t.isDir q := by
  unfold copyOne at h
  split at h
  · rw [if_neg (by simp)] at h
    cases h
  · split at h
    · cases h
    · obtain ⟨a, -, written⟩ := Option.bind_eq_some_iff.mp h
      exact write_isDir written

theorem copyAll_isDir : (t.copyAll false dst ps).1.isDir q = t.isDir q := by
  induction ps generalizing t with
  | nil => rfl
  | cons p ps ih =>
    unfold copyAll
    cases one : t.copyOne false dst p with
    | some u => exact ih.trans (copyOne_file_isDir one)
    | none => exact ih

/-! ### Files into a directory -/

/-- A file goes into a directory unless a directory has its name. -/
theorem copyOne_file (dir : t.isDir dst = true) (off : ¬ dst <+: p ++ [n]) :
    (∃ a, t.content (p ++ [n]) = some a ∧ t.isDir (dst ++ [n]) = false ∧
      ∃ u, t.copyOne false dst (p ++ [n]) = some u ∧ t.write (dst ++ [n]) a = some u) ∨
    (t.isFile (p ++ [n]) = true → t.isDir (dst ++ [n]) = true) ∧
      t.copyOne false dst (p ++ [n]) = none := by
  have target := landing_of_isDir (p := p) (n := n) dir
  have apart : p ++ [n] ≠ dst ++ [n] := fun same => off (same ▸ List.prefix_append dst [n])
  by_cases folder : t.isDir (p ++ [n]) = true
  · right
    constructor
    · intro file
      exact absurd (isDir_iff.mp folder) (not_isDir_of_isFile file)
    · rw [copyOne, if_pos folder, if_neg (by simp)]
  · cases held : t.content (p ++ [n]) with
    | none =>
      right
      constructor
      · intro file
        rw [isFile, held] at file
        cases file
      · rw [copyOne, if_neg folder, target, if_neg apart, held]
        rfl
    | some a =>
      have there : (t.node (p ++ [n])).isSome = true := by
        rw [content_eq_some.mp held]
        rfl
      have step : t.copyOne false dst (p ++ [n]) = t.write (dst ++ [n]) a := by
        rw [copyOne, if_neg folder, target, if_neg apart, held]
        rfl
      by_cases taken : t.isDir (dst ++ [n]) = true
      · refine .inr ⟨fun _ => taken, ?_⟩
        rw [step, ← Option.not_isSome_iff_eq_none, write_isSome, free_append]
        exact fun free => by simp [taken] at free
      · have free : t.free (dst ++ [n]) = true :=
          free_append.mpr ⟨dir, t.proper p n there, Bool.eq_false_iff.mpr taken⟩
        obtain ⟨u, written⟩ := Option.isSome_iff_exists.mp (write_isSome (a := a).mpr free)
        exact .inl ⟨a, rfl, Bool.eq_false_iff.mpr taken, u, step.trans written, written⟩

variable {d : Path} {names : List Name}

/-- **When files go into a directory.** -/
theorem copyAll_succeeds_iff (dir : t.isDir dst = true) (off : ¬ dst <+: d)
    (apart : ∀ n ∈ names, dst ≠ d ++ [n]) :
    (t.copyAll false dst (names.map fun n => d ++ [n])).2 = true ↔
      ∀ n ∈ names, t.isFile (d ++ [n]) = true ∧ t.isDir (dst ++ [n]) = false := by
  induction names generalizing t with
  | nil => exact ⟨fun _ => by simp, fun _ => rfl⟩
  | cons n names ih =>
    have rest : ∀ n ∈ names, dst ≠ d ++ [n] := fun k hk => apart k (List.mem_cons_of_mem n hk)
    have outside : ∀ k ∈ n :: names, ¬ dst <+: d ++ [k] := fun k hk le =>
      (List.prefix_concat_iff.mp le).elim (apart k hk) off
    rw [List.map_cons, copyAll, List.forall_mem_cons]
    rcases copyOne_file dir (outside n (by simp)) with ⟨a, held, free, u, one, written⟩ | ⟨no, one⟩
    · rw [one]
      have same : ∀ q, u.isDir q = t.isDir q := fun q => write_isDir written
      apply (ih (t := u) (by rw [same, dir]) rest).trans
      have here : t.isFile (d ++ [n]) = true ∧ t.isDir (dst ++ [n]) = false :=
        ⟨isFile_of_content held, free⟩
      rw [and_iff_right here]
      apply forall₂_congr
      intro k hk
      -- the operands lie outside of what the copy changes
      have frame : u.isFile (d ++ [k]) = t.isFile (d ++ [k]) :=
        ((write_agreeOff written).above (List.prefix_append dst [n])).isFile
          (outside k (List.mem_cons_of_mem n hk))
      rw [frame, same]
    · rw [one]
      apply iff_of_false (by simp)
      intro all
      have taken := no all.1.1
      rw [all.1.2] at taken
      cases taken

end Files.FileTree
