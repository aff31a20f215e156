/-
Trees of files.

A tree says for each path whether a directory or a file stands there, and it lists the paths at
which something does. What is above an entry is a directory, so a tree cannot hold an entry that
no path leads to. The operations are partial where the commands fail: a file does not become a
directory, nor a directory a file.

* `write_node`, `mkdirs_node`, `merge_node`, `remove_node` — what an operation leaves at a path.
* `mem_names` — the listing of a directory is complete.
* `AgreeOff` — two trees that differ below one path at most, which is how the operations frame.
-/

import Mathlib.Data.Char
import Mathlib.Data.List.Lex
import Mathlib.Data.List.Sort
import Mathlib.Data.List.Infix
import Mathlib.Data.List.Dedup

namespace Files

abbrev Name := List Char

/-- From the root downwards. -/
abbrev Path := List Name

/-- A name that a directory can hold besides `.` and `..`. -/
def Proper (n : Name) : Prop := n ≠ [] ∧ '/' ∉ n ∧ n ≠ ['.'] ∧ n ≠ ['.', '.']

instance (n : Name) : Decidable (Proper n) := inferInstanceAs (Decidable (_ ∧ _))

/-- A text that is one name. -/
def Single (n : Name) : Prop := n ≠ [] ∧ '/' ∉ n

instance (n : Name) : Decidable (Single n) := inferInstanceAs (Decidable (_ ∧ _))

theorem Proper.single {n : Name} (name : Proper n) : Single n := ⟨name.1, name.2.1⟩

/-- A name with another character than dots and slashes. -/
theorem proper_of_mem {n : Name} {c : Char} (other : c ≠ '.') (hc : c ∈ n) (flat : '/' ∉ n) :
    Proper n := by
  refine ⟨List.ne_nil_of_mem hc, flat, ?_, ?_⟩ <;>
  · rintro rfl
    simp [other] at hc

inductive Node (α : Type) where
  | dir
  | file (content : α)

namespace Node

variable {α : Type}

def isDir : Node α → Bool
  | dir => true
  | file _ => false

def content : Node α → Option α
  | dir => none
  | file a => some a

def map (f : α → α) : Node α → Node α
  | dir => dir
  | file a => file (f a)

theorem isDir_iff {x : Node α} : x.isDir = true ↔ x = dir := by
  cases x <;> simp [isDir]

end Node

structure FileTree (α : Type) where
  node : Path → Option (Node α)
  paths : List Path
  listed : ∀ p, (node p).isSome = true → p ∈ paths
  root : node [] = some .dir
  closed : ∀ p n, (node (p ++ [n])).isSome = true → node p = some .dir
  proper : ∀ p n, (node (p ++ [n])).isSome = true → Proper n

namespace FileTree

variable {α : Type} {t u v : FileTree α} {p q : Path} {n : Name} {a : α}

/-! ### Questions -/

def isDir (t : FileTree α) (p : Path) : Bool := (t.node p).any Node.isDir

/-- What a file holds. -/
def content (t : FileTree α) (p : Path) : Option α := (t.node p).bind Node.content

def isFile (t : FileTree α) (p : Path) : Bool := (t.content p).isSome

theorem isDir_iff : t.isDir p = true ↔ t.node p = some .dir := by
  simp [isDir, Option.any_eq_true, Node.isDir_iff]

theorem content_eq_some : t.content p = some a ↔ t.node p = some (.file a) := by
  unfold content
  cases t.node p with
  | none => simp
  | some x => cases x <;> simp [Node.content]

theorem isFile_iff : t.isFile p = true ↔ ∃ a, t.node p = some (.file a) := by
  rw [isFile, Option.isSome_iff_exists]
  exact exists_congr fun a => content_eq_some

theorem isFile_of_content (h : t.content p = some a) : t.isFile p = true := by
  rw [isFile, h, Option.isSome_some]

/-- Something stands at a path: a directory or a file. -/
theorem node_cases (t : FileTree α) (p : Path) :
    t.node p = none ∨ t.isDir p = true ∨ t.isFile p = true := by
  cases h : t.node p with
  | none => exact .inl rfl
  | some x =>
    cases x with
    | dir => exact .inr (.inl (isDir_iff.mpr h))
    | file a => exact .inr (.inr (isFile_iff.mpr ⟨a, h⟩))

/-- Both questions together say what stands there. -/
theorem node_eq_of (dirs : u.isDir q = t.isDir p) (files : u.content q = t.content p) :
    u.node q = t.node p := by
  unfold isDir content at *
  rcases hu : u.node q with _ | _ | a <;> rcases ht : t.node p with _ | _ | b <;>
    simp_all [Node.isDir, Node.content]

theorem not_isDir_of_isFile (h : t.isFile p = true) : t.node p ≠ some .dir := by
  obtain ⟨a, ha⟩ := isFile_iff.mp h
  simp [ha]

/-- Whatever leads to an entry is a directory. -/
theorem isDir_of_append {r : Path} (nonempty : r ≠ []) (h : (t.node (p ++ r)).isSome = true) :
    t.node p = some .dir := by
  induction r using List.reverseRecOn with
  | nil => exact absurd rfl nonempty
  | append_singleton r n ih =>
    have above := t.closed (p ++ r) n (by rwa [List.append_assoc])
    by_cases empty : r = []
    · rwa [empty, List.append_nil] at above
    · exact ih empty (by rw [above]; rfl)

theorem isDir_of_below (le : q <+: p) (h : t.isDir p = true) : t.isDir q = true := by
  obtain ⟨r, rfl⟩ := le
  by_cases empty : r = []
  · rwa [empty, List.append_nil] at h
  · exact isDir_iff.mpr (isDir_of_append empty (by rw [isDir_iff.mp h]; rfl))

theorem proper_of_isDir (h : t.isDir p = true) : ∀ n ∈ p, Proper n := by
  induction p using List.reverseRecOn with
  | nil => simp
  | append_singleton p n ih =>
    intro k hk
    rcases List.mem_append.mp hk with hk | hk
    · exact ih (isDir_of_below (List.prefix_append p [n]) h) k hk
    · rw [List.mem_singleton.mp hk]
      exact t.proper p n (by rw [isDir_iff.mp h]; rfl)

/-! ### Trees from their entries -/

/-- The entry of a path. -/
def entryAt (entries : List (Path × Node α)) (p : Path) : Option (Node α) :=
  (entries.find? fun e => e.1 = p).map Prod.snd

/-- The entry has a proper name and lies in a directory of the list. -/
def placed (entries : List (Path × Node α)) (p : Path) : Bool :=
  p.getLast?.any (fun n => Proper n) &&
    (decide (p.dropLast = []) || (entryAt entries p.dropLast).any Node.isDir)

theorem mem_of_entryAt {entries : List (Path × Node α)}
    (h : (entryAt entries p).isSome = true) : p ∈ entries.map Prod.fst := by
  rw [entryAt, Option.isSome_map] at h
  obtain ⟨e, found⟩ := Option.isSome_iff_exists.mp h
  have here : e.1 = p := by simpa using List.find?_some found
  exact here ▸ List.mem_map_of_mem (List.mem_of_find?_eq_some found)

def ofEntries (entries : List (Path × Node α))
    (ok : (entries.map Prod.fst).all (placed entries) = true) : FileTree α where
  node q := if q = [] then some .dir else entryAt entries q
  paths := [] :: entries.map Prod.fst
  listed q hq := by
    by_cases empty : q = []
    · simp [empty]
    · rw [if_neg empty] at hq
      exact List.mem_cons_of_mem _ (mem_of_entryAt hq)
  root := rfl
  closed q n hq := by
    rw [if_neg (by simp)] at hq
    have good := List.all_eq_true.mp ok _ (mem_of_entryAt hq)
    simp only [placed, List.getLast?_concat, List.dropLast_concat, Bool.and_eq_true,
      Bool.or_eq_true, decide_eq_true_eq, Option.any_eq_true, Node.isDir_iff] at good
    by_cases empty : q = []
    · rw [if_pos empty]
    · rw [if_neg empty]
      obtain ⟨x, found, rfl⟩ := good.2.resolve_left empty
      exact found
  proper q n hq := by
    rw [if_neg (by simp)] at hq
    have good := List.all_eq_true.mp ok _ (mem_of_entryAt hq)
    simpa [placed] using (Bool.and_eq_true_iff.mp good).1

/-! ### Listings -/

/-- The entries of a directory, in the order of their names. -/
def names (t : FileTree α) (p : Path) : List Name :=
  ((t.paths.filter fun q => q.dropLast = p ∧ (t.node q).isSome = true).filterMap
    List.getLast?).dedup.insertionSort (· ≤ ·)

theorem mem_names : n ∈ t.names p ↔ (t.node (p ++ [n])).isSome = true := by
  unfold names
  rw [List.mem_insertionSort, List.mem_dedup]
  simp only [List.mem_filterMap, List.mem_filter, decide_eq_true_eq]
  constructor
  · rintro ⟨q, ⟨-, rfl, there⟩, hn⟩
    rwa [List.dropLast_append_getLast? n hn]
  · intro there
    exact ⟨p ++ [n], ⟨t.listed _ there, by simp, there⟩, by simp⟩

/-! ### Trees that agree -/

/-- The trees differ at most at `p` and below it. -/
def AgreeOff (p : Path) (t u : FileTree α) : Prop := ∀ q, ¬ p <+: q → u.node q = t.node q

theorem AgreeOff.refl (p : Path) (t : FileTree α) : AgreeOff p t t := fun _ _ => rfl

theorem AgreeOff.trans (first : AgreeOff p t u) (second : AgreeOff p u v) : AgreeOff p t v :=
  fun q hq => (second q hq).trans (first q hq)

/-- They differ at most above a path if they do below it. -/
theorem AgreeOff.above (h : AgreeOff p t u) (le : q <+: p) : AgreeOff q t u :=
  fun r hr => h r fun hp => hr (le.trans hp)

theorem AgreeOff.isDir (h : AgreeOff p t u) (hq : ¬ p <+: q) : u.isDir q = t.isDir q := by
  rw [FileTree.isDir, FileTree.isDir, h q hq]

theorem AgreeOff.content (h : AgreeOff p t u) (hq : ¬ p <+: q) : u.content q = t.content q := by
  rw [FileTree.content, FileTree.content, h q hq]

theorem AgreeOff.isFile (h : AgreeOff p t u) (hq : ¬ p <+: q) : u.isFile q = t.isFile q := by
  rw [FileTree.isFile, FileTree.isFile, h.content hq]

/-! ### One entry -/

/-- A place for an entry: in a directory, and not a directory itself. -/
def Free (t : FileTree α) (p : Path) : Prop :=
  ∃ d n, p = d ++ [n] ∧ t.node d = some .dir ∧ Proper n ∧ t.node p ≠ some .dir

def free (t : FileTree α) (p : Path) : Bool :=
  p.getLast?.any (fun n => Proper n) && t.isDir p.dropLast && ! t.isDir p

theorem free_append :
    t.free (p ++ [n]) = true ↔ t.isDir p = true ∧ Proper n ∧ t.isDir (p ++ [n]) = false := by
  simp [free, and_assoc, and_left_comm]

theorem free_iff : t.free p = true ↔ t.Free p := by
  induction p using List.reverseRecOn with
  | nil => simp [free, Free]
  | append_singleton p n =>
    rw [free_append, isDir_iff, Bool.eq_false_iff, Ne, isDir_iff]
    constructor
    · rintro ⟨parent, name, absent⟩
      exact ⟨p, n, rfl, parent, name, absent⟩
    · rintro ⟨d, k, same, parent, name, absent⟩
      obtain ⟨rfl, last⟩ := List.append_inj' same rfl
      obtain ⟨rfl, -⟩ := List.cons.inj last
      exact ⟨parent, name, absent⟩

/-- A file can be written again. -/
theorem free_of_isFile (h : t.isFile p = true) : t.free p = true := by
  obtain ⟨a, ha⟩ := isFile_iff.mp h
  induction p using List.reverseRecOn with
  | nil =>
    rw [t.root] at ha
    cases ha
  | append_singleton d n =>
    have there : (t.node (d ++ [n])).isSome = true := by rw [ha]; rfl
    rw [free_append, isDir_iff, Bool.eq_false_iff, Ne, isDir_iff, ha]
    exact ⟨t.closed d n there, t.proper d n there, nofun⟩

/-- A new entry in a directory, or another file in the place of one. -/
def put (t : FileTree α) (p : Path) (x : Node α) (free : t.Free p) : FileTree α where
  node := Function.update t.node p (some x)
  paths := p :: t.paths
  listed q hq := by
    by_cases here : q = p
    · simp [here]
    · rw [Function.update_of_ne here] at hq
      exact List.mem_cons_of_mem _ (t.listed q hq)
  root := by
    obtain ⟨d, n, rfl, -⟩ := free
    rw [Function.update_of_ne (by simp), t.root]
  closed q k hq := by
    obtain ⟨d, n, rfl, parent, -, absent⟩ := free
    by_cases here : q ++ [k] = d ++ [n]
    · obtain ⟨rfl, -⟩ := List.append_inj' here rfl
      rw [Function.update_of_ne (by simp), parent]
    · rw [Function.update_of_ne here] at hq
      have above := t.closed q k hq
      by_cases same : q = d ++ [n]
      · exact absurd (same ▸ above) absent
      · rw [Function.update_of_ne same, above]
  proper q k hq := by
    obtain ⟨d, n, rfl, -, name, -⟩ := free
    by_cases here : q ++ [k] = d ++ [n]
    · obtain ⟨-, last⟩ := List.append_inj' here rfl
      rwa [(List.cons.inj last).1]
    · rw [Function.update_of_ne here] at hq
      exact t.proper q k hq

theorem put_node (x : Node α) (free : t.Free p) :
    (t.put p x free).node = Function.update t.node p (some x) := rfl

/-- Write a file. -/
def write (t : FileTree α) (p : Path) (a : α) : Option (FileTree α) :=
  if h : t.free p = true then some (t.put p (.file a) (free_iff.mp h)) else none

/-- Make a directory where there is nothing. -/
def mkdir (t : FileTree α) (p : Path) : Option (FileTree α) :=
  if h : t.free p = true ∧ t.node p = none then some (t.put p .dir (free_iff.mp h.1)) else none

theorem write_isSome : (t.write p a).isSome = true ↔ t.free p = true := by
  unfold write
  split <;> simp [*]

theorem write_node (h : t.write p a = some u) :
    u.node = Function.update t.node p (some (.file a)) := by
  unfold write at h
  split at h
  · exact congrArg node (Option.some.inj h).symm
  · cases h

theorem write_content (h : t.write p a = some u) : u.content p = some a := by
  rw [content, write_node h, Function.update_self]
  rfl

theorem write_other (h : t.write p a = some u) (hq : q ≠ p) : u.node q = t.node q := by
  rw [write_node h, Function.update_of_ne hq]

theorem write_isDir (h : t.write p a = some u) : u.isDir q = t.isDir q := by
  by_cases here : q = p
  · have free : t.free p = true := write_isSome.mp (by rw [h]; rfl)
    obtain ⟨-, -, -, -, -, absent⟩ := free_iff.mp free
    have before : t.isDir p = false := Bool.eq_false_iff.mpr (mt isDir_iff.mp absent)
    rw [here, before, isDir, write_node h, Function.update_self]
    rfl
  · rw [isDir, isDir, write_other h here]

theorem write_agreeOff (h : t.write p a = some u) : AgreeOff p t u :=
  fun _ hq => write_other h fun same => hq (same ▸ List.prefix_refl p)

theorem mkdir_node (h : t.mkdir p = some u) : u.node = Function.update t.node p (some .dir) := by
  unfold mkdir at h
  split at h
  · exact congrArg node (Option.some.inj h).symm
  · cases h

theorem mkdir_absent (h : t.mkdir p = some u) : t.node p = none := by
  unfold mkdir at h
  split at h
  · next free => exact free.2
  · cases h

theorem mkdir_isDir (h : t.mkdir p = some u) (dir : t.isDir q = true) : u.isDir q = true := by
  have other : q ≠ p := by
    rintro rfl
    rw [isDir_iff, mkdir_absent h] at dir
    cases dir
  rwa [isDir, mkdir_node h, Function.update_of_ne other]

theorem mkdir_agreeOff (h : t.mkdir p = some u) : AgreeOff p t u := by
  intro q hq
  have other : q ≠ p := fun same => hq (same ▸ List.prefix_refl p)
  rw [mkdir_node h, Function.update_of_ne other]

/-! ### Directories on the way to a path -/

/-- Make the directories of `r` below `base` that are missing. -/
def mkdirsFrom (t : FileTree α) (base : Path) : Path → Option (FileTree α)
  | [] => some t
  | n :: r =>
    if t.isDir (base ++ [n]) then t.mkdirsFrom (base ++ [n]) r
    else (t.mkdir (base ++ [n])).bind fun u => u.mkdirsFrom (base ++ [n]) r

/-- `mkdir -p` -/
def mkdirs (t : FileTree α) (p : Path) : Option (FileTree α) := t.mkdirsFrom [] p

/-- What leads to an entry is there. -/
theorem isSome_of_below (le : q <+: p) (h : (t.node p).isSome = true) :
    (t.node q).isSome = true := by
  obtain ⟨r, rfl⟩ := le
  by_cases empty : r = []
  · rwa [empty, List.append_nil] at h
  · rw [isDir_of_append empty h]
    rfl

theorem mkdirsFrom_node {base r : Path} (h : t.mkdirsFrom base r = some u)
    (there : t.node base = some .dir) (q : Path) :
    u.node q = if q <+: base ++ r ∧ t.node q = none then some .dir else t.node q := by
  induction r generalizing t base with
  | nil =>
    obtain rfl : t = u := Option.some.inj h
    rw [List.append_nil, if_neg]
    rintro ⟨le, absent⟩
    have := isSome_of_below le (by rw [there]; rfl)
    simp [absent] at this
  | cons n r ih =>
    rw [mkdirsFrom] at h
    split at h
    · next dir =>
      rw [ih h (isDir_iff.mp dir), List.append_assoc, List.singleton_append]
    · obtain ⟨w, made, rest⟩ := Option.bind_eq_some_iff.mp h
      have node := mkdir_node made
      rw [ih rest (by rw [node, Function.update_self]), List.append_assoc, List.singleton_append]
      by_cases here : q = base ++ [n]
      · have absent : t.node q = none := here ▸ mkdir_absent made
        have le : q <+: base ++ n :: r := ⟨r, by simp [here]⟩
        have now : w.node q = some .dir := by rw [node, here, Function.update_self]
        rw [if_neg (by simp [now]), if_pos ⟨le, absent⟩, now]
      · rw [node, Function.update_of_ne here]

/-- **Making a path** adds the directories that are missing on the way. -/
theorem mkdirs_node (h : t.mkdirs p = some u) (q : Path) :
    u.node q = if q <+: p ∧ t.node q = none then some .dir else t.node q :=
  mkdirsFrom_node h t.root q

theorem mkdirsFrom_isDir {base r : Path} (h : t.mkdirsFrom base r = some u)
    (there : t.isDir base = true) : u.isDir (base ++ r) = true := by
  induction r generalizing t base with
  | nil =>
    obtain rfl : t = u := Option.some.inj h
    rwa [List.append_nil]
  | cons n r ih =>
    have assoc : base ++ n :: r = base ++ [n] ++ r := by simp
    rw [mkdirsFrom] at h
    rw [assoc]
    split at h
    · next dir => exact ih h dir
    · obtain ⟨w, made, rest⟩ := Option.bind_eq_some_iff.mp h
      exact ih rest (isDir_iff.mpr (by rw [mkdir_node made, Function.update_self]))

/-- The path is a directory then, -/
theorem isDir_of_mkdirs (h : t.mkdirs p = some u) : u.isDir p = true :=
  mkdirsFrom_isDir h (isDir_iff.mpr t.root)

/-- and what was one still is. -/
theorem mkdirs_isDir (h : t.mkdirs p = some u) (dir : t.isDir q = true) : u.isDir q = true := by
  rw [isDir_iff] at dir ⊢
  rw [mkdirs_node h, dir, if_neg (by simp)]

theorem mkdirsFrom_isSome {base r : Path} (there : t.node base = some .dir)
    (names : ∀ n ∈ r, Proper n) (clear : ∀ q, q <+: base ++ r → t.isFile q = false) :
    (t.mkdirsFrom base r).isSome = true := by
  induction r generalizing t base with
  | nil => rfl
  | cons n r ih =>
    have tail : ∀ m ∈ r, Proper m := fun m hm => names m (List.mem_cons_of_mem _ hm)
    have assoc : base ++ [n] ++ r = base ++ n :: r := by simp
    rw [mkdirsFrom]
    split
    · next dir => exact ih (isDir_iff.mp dir) tail (by rwa [assoc])
    · next other =>
      have absent : t.node (base ++ [n]) = none := by
        rcases t.node_cases (base ++ [n]) with h | h | h
        · exact h
        · exact absurd h other
        · rw [clear _ ⟨r, assoc⟩] at h
          cases h
      have free : t.free (base ++ [n]) = true :=
        free_append.mpr ⟨isDir_iff.mpr there, names n (by simp), Bool.eq_false_iff.mpr other⟩
      have made : t.mkdir (base ++ [n]) = some (t.put _ .dir (free_iff.mp free)) := by
        rw [mkdir, dif_pos ⟨free, absent⟩]
      rw [made, Option.bind_some]
      apply ih (Function.update_self ..) tail
      intro q hq
      rw [assoc] at hq
      by_cases here : q = base ++ [n]
      · simp [here, isFile, content, put, Node.content]
      · have := clear q hq
        rwa [isFile, content, put_node, Function.update_of_ne here]

theorem mkdirs_isSome (names : ∀ n ∈ p, Proper n) (clear : ∀ q, q <+: p → t.isFile q = false) :
    (t.mkdirs p).isSome = true :=
  mkdirsFrom_isSome t.root names clear

/-! ### Whole directories -/

/-- A directory here and a file there. -/
def clash (x y : Option (Node α)) : Bool :=
  match x, y with
  | some .dir, some (.file _) => true
  | some (.file _), some .dir => true
  | _, _ => false

theorem clash_self (x : Option (Node α)) : clash x x = false := by
  rcases x with _ | _ | _ <;> rfl

theorem isSome_of_clash {x y : Option (Node α)} (h : clash x y = true) :
    x.isSome = true ∧ y.isSome = true := by
  rcases x with _ | _ | _ <;> rcases y with _ | _ | _ <;> first | exact ⟨rfl, rfl⟩ | cases h

theorem eq_dir_of_clash {y : Option (Node α)} (apart : clash y (some .dir) = false)
    (there : y.isSome = true) : y = some .dir := by
  rcases y with _ | _ | _
  · cases there
  · rfl
  · cases apart

/-- The directory `src` can be laid over what stands at `dst`. -/
def Merges (t : FileTree α) (src dst : Path) : Prop :=
  t.node src = some .dir ∧ (t.node dst = some .dir ∨ t.Free dst) ∧
    ∀ r, clash (t.node (src ++ r)) (t.node (dst ++ r)) = false

def merges (t : FileTree α) (src dst : Path) : Bool :=
  t.isDir src && (t.isDir dst || t.free dst) &&
    t.paths.all fun q => ! decide (src <+: q) ||
      ! clash (t.node q) (t.node (dst ++ q.drop src.length))

theorem merges_iff {src dst : Path} : t.merges src dst = true ↔ t.Merges src dst := by
  simp only [merges, Merges, Bool.and_eq_true, Bool.or_eq_true, isDir_iff, free_iff,
    List.all_eq_true, Bool.not_eq_true', decide_eq_false_iff_not, and_assoc]
  refine and_congr_right fun _ => and_congr_right fun _ => ?_
  constructor
  · intro h r
    cases there : t.node (src ++ r) with
    | none => rfl
    | some x =>
      rcases h (src ++ r) (t.listed _ (by rw [there]; rfl)) with apart | apart
      · exact absurd ⟨r, rfl⟩ apart
      · rwa [there, List.drop_left] at apart
  · rintro h q -
    by_cases le : src <+: q
    · obtain ⟨r, rfl⟩ := le
      right
      rw [List.drop_left]
      exact h r
    · exact .inl le

/-- What stands at `q` after `src` has been laid over `dst`. -/
def laid (t : FileTree α) (src dst q : Path) : Option (Node α) :=
  if dst <+: q then (t.node (src ++ q.drop dst.length)).or (t.node q) else t.node q

theorem laid_append (t : FileTree α) (src dst r : Path) :
    t.laid src dst (dst ++ r) = (t.node (src ++ r)).or (t.node (dst ++ r)) := by
  rw [laid, if_pos ⟨r, rfl⟩, List.drop_left]

theorem laid_other {src dst : Path} (h : ¬ dst <+: q) : t.laid src dst q = t.node q := by
  rw [laid, if_neg h]

/-- Lay a directory over another: the files of `src` replace those of `dst`. -/
def overlay (t : FileTree α) (src dst : Path) (h : t.Merges src dst) : FileTree α where
  node := t.laid src dst
  paths := t.paths ++ t.paths.map fun q => dst ++ q.drop src.length
  listed q hq := by
    rw [List.mem_append]
    by_cases le : dst <+: q
    · obtain ⟨r, rfl⟩ := le
      rw [laid_append, Option.isSome_or, Bool.or_eq_true] at hq
      rcases hq with hq | hq
      · right
        rw [List.mem_map]
        exact ⟨src ++ r, t.listed _ hq, by rw [List.drop_left]⟩
      · exact .inl (t.listed _ hq)
    · rw [laid_other le] at hq
      exact .inl (t.listed _ hq)
  root := by
    by_cases le : dst <+: []
    · obtain rfl := List.prefix_nil.mp le
      have whole := t.laid_append src [] []
      simp only [List.append_nil, h.1, Option.some_or] at whole
      exact whole
    · rw [laid_other le, t.root]
  closed q k hq := by
    obtain ⟨source, target, apart⟩ := h
    by_cases le : dst <+: q
    · obtain ⟨r, rfl⟩ := le
      rw [List.append_assoc, laid_append, ← List.append_assoc, ← List.append_assoc,
        Option.isSome_or, Bool.or_eq_true] at hq
      rw [laid_append]
      rcases hq with hq | hq
      · rw [t.closed _ k hq, Option.some_or]
      · have above := t.closed _ k hq
        rw [above]
        cases there : t.node (src ++ r) with
        | none => rfl
        | some x =>
          have := apart r
          rw [above] at this
          rw [Option.some_or, ← there, eq_dir_of_clash this (by rw [there]; rfl)]
    · by_cases here : dst = q ++ [k]
      · rw [laid_other le]
        subst here
        rcases target with dir | ⟨d, n, same, parent, -, -⟩
        · exact t.closed q k (by rw [dir]; rfl)
        · obtain ⟨rfl, -⟩ := List.append_inj' same rfl
          exact parent
      · have off : ¬ dst <+: q ++ [k] := fun h =>
          (List.prefix_concat_iff.mp h).elim here le
        rw [laid_other off] at hq
        rw [laid_other le, t.closed q k hq]
  proper q k hq := by
    obtain ⟨source, target, -⟩ := h
    by_cases le : dst <+: q
    · obtain ⟨r, rfl⟩ := le
      rw [List.append_assoc, laid_append, ← List.append_assoc, ← List.append_assoc,
        Option.isSome_or, Bool.or_eq_true] at hq
      exact hq.elim (t.proper _ k) (t.proper _ k)
    · by_cases here : dst = q ++ [k]
      · subst here
        rcases target with dir | ⟨d, n, same, -, name, -⟩
        · exact t.proper q k (by rw [dir]; rfl)
        · obtain ⟨-, last⟩ := List.append_inj' same rfl
          rwa [(List.cons.inj last).1]
      · have off : ¬ dst <+: q ++ [k] := fun h =>
          (List.prefix_concat_iff.mp h).elim here le
        rw [laid_other off] at hq
        exact t.proper q k hq

/-- `ditto src/ dst`, and `cp -r` of a directory onto `dst`. -/
def merge (t : FileTree α) (src dst : Path) : Option (FileTree α) :=
  if h : t.merges src dst = true then some (t.overlay src dst (merges_iff.mp h)) else none

theorem merge_isSome {src dst : Path} : (t.merge src dst).isSome = true ↔ t.Merges src dst := by
  rw [← merges_iff]
  unfold merge
  split <;> simp [*]

theorem merge_node {src dst : Path} (h : t.merge src dst = some u) : u.node = t.laid src dst := by
  unfold merge at h
  split at h
  · exact congrArg node (Option.some.inj h).symm
  · cases h

theorem merge_agreeOff {src dst : Path} (h : t.merge src dst = some u) : AgreeOff dst t u := by
  intro q hq
  rw [merge_node h, laid_other hq]

theorem clash_node (p q : Path) : clash (t.node p) (t.node q) =
    (t.isDir p && t.isFile q || t.isFile p && t.isDir q) := by
  unfold isDir isFile content
  rcases t.node p with _ | _ | _ <;> rcases t.node q with _ | _ | _ <;> rfl

theorem merge_apart {src dst : Path} (h : t.merge src dst = some u) (r : Path) :
    clash (t.node (src ++ r)) (t.node (dst ++ r)) = false := by
  have merges : t.Merges src dst := merge_isSome.mp (by rw [h]; rfl)
  exact merges.2.2 r

/-- A merge of two directories fails only where they clash. -/
theorem clash_of_merge_none {src dst : Path} (source : t.isDir src = true)
    (target : t.isDir dst = true) (h : t.merge src dst = none) :
    ∃ r, clash (t.node (src ++ r)) (t.node (dst ++ r)) = true := by
  by_contra apart
  have merges : t.Merges src dst :=
    ⟨isDir_iff.mp source, .inl (isDir_iff.mp target), fun r =>
      Bool.eq_false_iff.mpr fun clashes => apart ⟨r, clashes⟩⟩
  rw [← merge_isSome, h] at merges
  cases merges

/-- A merge adds the directories of the one to those of the other, -/
theorem merge_isDir {src dst : Path} (h : t.merge src dst = some u) (r : Path) :
    u.isDir (dst ++ r) = (t.isDir (src ++ r) || t.isDir (dst ++ r)) := by
  have apart := merge_apart h r
  rw [isDir, isDir, isDir, merge_node h, laid_append]
  revert apart
  rcases t.node (src ++ r) with _ | _ | _ <;> rcases t.node (dst ++ r) with _ | _ | _ <;>
    intro apart <;> first | rfl | cases apart

/-- and the files. -/
theorem merge_isFile {src dst : Path} (h : t.merge src dst = some u) (r : Path) :
    u.isFile (dst ++ r) = (t.isFile (src ++ r) || t.isFile (dst ++ r)) := by
  have apart := merge_apart h r
  rw [isFile, isFile, isFile, content, content, content, merge_node h, laid_append]
  revert apart
  rcases t.node (src ++ r) with _ | _ | _ <;> rcases t.node (dst ++ r) with _ | _ | _ <;>
    intro apart <;> first | rfl | cases apart

theorem merge_content {src dst : Path} (h : t.merge src dst = some u) (r : Path) :
    u.content (dst ++ r) = (t.content (src ++ r)).or (t.content (dst ++ r)) := by
  have apart := merge_apart h r
  rw [content, content, content, merge_node h, laid_append]
  revert apart
  rcases t.node (src ++ r) with _ | _ | _ <;> rcases t.node (dst ++ r) with _ | _ | _ <;>
    intro apart <;> first | rfl | cases apart

/-- `rm -rf` of an entry. -/
def remove (t : FileTree α) (p : Path) (n : Name) : FileTree α where
  node q := if p ++ [n] <+: q then none else t.node q
  paths := t.paths
  listed q hq := by
    split at hq
    · cases hq
    · exact t.listed q hq
  root := by
    rw [if_neg (by simp [List.prefix_nil]), t.root]
  closed q k hq := by
    split at hq
    · cases hq
    · next off =>
      rw [if_neg fun le => off (le.trans (List.prefix_append q [k])), t.closed q k hq]
  proper q k hq := by
    split at hq
    · cases hq
    · exact t.proper q k hq

theorem remove_agreeOff (t : FileTree α) (p : Path) (n : Name) :
    AgreeOff (p ++ [n]) t (t.remove p n) :=
  fun q hq => by
    show (if p ++ [n] <+: q then none else t.node q) = t.node q
    rw [if_neg hq]

/-- Change what the files hold, each as its path says. -/
def edit (t : FileTree α) (f : Path → α → α) : FileTree α where
  node q := (t.node q).map (Node.map (f q))
  paths := t.paths
  listed q hq := t.listed q (by rwa [Option.isSome_map] at hq)
  root := by
    rw [t.root]
    rfl
  closed q k hq := by
    rw [t.closed q k (by rwa [Option.isSome_map] at hq)]
    rfl
  proper q k hq := t.proper q k (by rwa [Option.isSome_map] at hq)

theorem edit_node (f : Path → α → α) (q : Path) :
    (t.edit f).node q = (t.node q).map (Node.map (f q)) := rfl

@[simp] theorem edit_isDir (f : Path → α → α) (q : Path) : (t.edit f).isDir q = t.isDir q := by
  rw [isDir, isDir, edit_node]
  rcases t.node q with _ | _ | _ <;> rfl

@[simp] theorem edit_content (f : Path → α → α) (q : Path) :
    (t.edit f).content q = (t.content q).map (f q) := by
  rw [content, content, edit_node]
  rcases t.node q with _ | _ | _ <;> rfl

@[simp] theorem edit_isFile (f : Path → α → α) (q : Path) : (t.edit f).isFile q = t.isFile q := by
  rw [isFile, edit_content, Option.isSome_map, isFile]

theorem edit_agreeOff {f : Path → α → α} (same : ∀ q, ¬ p <+: q → f q = id) :
    AgreeOff p t (t.edit f) := by
  intro q hq
  rw [edit_node, same q hq]
  rcases t.node q with _ | _ | _ <;> rfl

end FileTree

end Files
