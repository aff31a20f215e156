/-
Paths as the shell writes them.

`resolve` reads a text as a path. `expand` is pathname expansion: a word with pattern characters
becomes the paths that match, or stays as it is where none does. `unquoted` is what an expansion
without quotes becomes: its fields, each of them expanded.

* `resolve_slash` — what stands behind a slash is read name by name.
* `unquoted_bare` — a word without blanks and pattern characters stands for itself.
* `expand_slash` — the expansion below a plain path.
* `unquoted_star` — the words of `BASE/*`.
* `below_of_unquoted`, `relative_of_unquoted` — where the words lie that an expansion becomes.
-/

import MapnikPackaging.Files.Tree
import MapnikPackaging.Shell.Glob
import MapnikPackaging.Shell.Words

namespace Files

open Shell

/-! ### Texts as paths -/

/-- The names in the text of a path, as they are written. Nothing in a tree is called `.` or `..`,
so the paths that lead through them are not those of the machine. -/
def components (text : List Char) : Path := (text.splitOn '/').filter (· ≠ [])

/-- No name of the path is `.` or `..`. -/
def Dotless (text : List Char) : Prop := ∀ n ∈ components text, Proper n

instance (text : List Char) : Decidable (Dotless text) :=
  List.decidableBAll Proper (components text)

/-- The path that a text names from the directory `cwd`. -/
def resolve (cwd : Path) (text : List Char) : Path :=
  if text.head? = some '/' then components text else cwd ++ components text

theorem components_slash (a b : List Char) :
    components (a ++ '/' :: b) = components a ++ components b := by
  unfold components
  rw [List.splitOn_append_cons_self, List.filter_append]

theorem components_of_single {n : Name} (name : Single n) : components n = [n] := by
  unfold components
  rw [List.splitOn_eq_singleton name.2]
  simp [name.1]

theorem components_ne_nil {c : Char} {text : List Char} (other : c ≠ '/') :
    components (c :: text) ≠ [] := by
  obtain ⟨part, parts, split⟩ := List.exists_cons_of_ne_nil (List.splitOn_ne_nil '/' text)
  rw [components, List.splitOn_cons_eq_if_modifyHead, if_neg (by simpa using other), split,
    List.modifyHead_cons]
  simp

/-- **What stands behind a slash** is read name by name. -/
theorem resolve_slash (cwd : Path) (a b : List Char) :
    resolve cwd (a ++ '/' :: b) = resolve cwd (a ++ ['/']) ++ components b := by
  have empty : components [] = [] := rfl
  have first : (a ++ '/' :: b).head? = (a ++ ['/']).head? := by cases a <;> rfl
  unfold resolve
  rw [first, components_slash, components_slash, empty, List.append_nil]
  split
  · rfl
  · rw [List.append_assoc]

/-- A slash at the end names the same. -/
theorem resolve_end (cwd : Path) {a : List Char} (nonempty : a ≠ []) :
    resolve cwd (a ++ ['/']) = resolve cwd a := by
  have empty : components [] = [] := rfl
  obtain ⟨c, cs, rfl⟩ := List.exists_cons_of_ne_nil nonempty
  rw [resolve, resolve, components_slash, empty, List.append_nil]
  rfl

/-! ### Pathname expansion -/

/-- A name matches; one that begins with a dot only if the pattern does. -/
def nameMatches (part : List Char) (n : Name) : Bool :=
  globMatch (pattern part) n && (n.head? != some '.' || part.head? == some '.')

variable {α : Type} {t : FileTree α} {cwd : Path}

/-- The texts of the paths that match, name by name; `done` is the text before. -/
def matching (t : FileTree α) (cwd : Path) (done : List Char) : List (List Char) → List (List Char)
  | [] => []
  | part :: parts =>
    let names := if Plain part then [part]
      else (t.names (resolve cwd done)).filter (nameMatches part)
    match parts with
    | [] => (names.map (done ++ ·)).filter fun path => (t.node (resolve cwd path)).isSome
    | next :: parts => names.flatMap fun n => matching t cwd (done ++ n ++ ['/']) (next :: parts)

/-- Pathname expansion of a word. -/
def expand (t : FileTree α) (cwd : Path) (word : List Char) : List (List Char) :=
  if Plain word then [word]
  else
    let found := matching t cwd [] (word.splitOn '/')
    if found = [] then [word] else found

/-- What an expansion becomes that is not quoted. -/
def unquoted (t : FileTree α) (cwd : Path) (text : List Char) : List (List Char) :=
  (fields text).flatMap (expand t cwd)

theorem expand_plain {word : List Char} (plain : Plain word) : expand t cwd word = [word] := by
  rw [expand, if_pos plain]

/-- No character of the text divides it or makes a pattern of it. -/
def Bare (text : List Char) : Prop := ∀ c ∈ text, isBlank c = false ∧ c ∉ wild

instance (text : List Char) : Decidable (Bare text) :=
  List.decidableBAll (fun c => isBlank c = false ∧ c ∉ wild) text

theorem Bare.plain {text : List Char} (bare : Bare text) : Plain text := fun c hc => (bare c hc).2

theorem Bare.append {a b : List Char} (ha : Bare a) (hb : Bare b) : Bare (a ++ b) :=
  fun c hc => (List.mem_append.mp hc).elim (ha c) (hb c)

theorem Bare.cons {c : Char} {text : List Char} (hc : isBlank c = false ∧ c ∉ wild)
    (h : Bare text) : Bare (c :: text) := by
  intro d hd
  rcases List.mem_cons.mp hd with rfl | hd
  · exact hc
  · exact h d hd

/-- **A bare word stands for itself.** -/
theorem unquoted_bare {word : List Char} (nonempty : word ≠ []) (bare : Bare word) :
    unquoted t cwd word = [word] := by
  rw [unquoted, fields_of_word nonempty fun c hc => (bare c hc).1]
  simp [expand_plain bare.plain]

/-- Fields without pattern characters stay as they are. -/
theorem unquoted_fields {text : List Char} (bare : ∀ word ∈ fields text, Bare word) :
    unquoted t cwd text = fields text := by
  have expands : (fields text).flatMap (expand t cwd) = (fields text).flatMap fun w => [w] :=
    List.flatMap_congr fun w hw => expand_plain (bare w hw).plain
  rw [unquoted, expands, List.flatMap_singleton']

/-- So does each of several words, behind a blank. -/
theorem unquoted_words {words : List (List Char)}
    (bare : ∀ word ∈ words, word ≠ [] ∧ Bare word) :
    unquoted t cwd (words.flatMap fun word => ' ' :: word) = words := by
  have split : fields (words.flatMap fun word => ' ' :: word) = words := by
    cases words with
    | nil => rfl
    | cons word words =>
      have joined : ∀ (w : List Char) (ws : List (List Char)),
          (w :: ws).flatMap (fun word => ' ' :: word) = ' ' :: [' '].intercalate (w :: ws) := by
        intro w ws
        induction ws generalizing w with
        | nil => simp
        | cons u us ih => rw [List.flatMap_cons, ih, List.intercalate_cons_cons]; simp
      have front := fields_append_blank (c := ' ') rfl [] ([' '].intercalate (word :: words))
      rw [joined, ← List.nil_append (' ' :: _), front]
      exact fields_intercalate rfl fun w hw => ⟨(bare w hw).1, fun c hc => ((bare w hw).2 c hc).1⟩
  rw [unquoted_fields fun w hw => (bare w (split ▸ hw)).2, split]

/-- Plain names are walked through. -/
theorem matching_append {ps parts : List (List Char)} (plain : ∀ p ∈ ps, Plain p)
    (more : parts ≠ []) (done : List Char) :
    matching t cwd done (ps ++ parts)
      = matching t cwd (done ++ ps.flatMap fun p => p ++ ['/']) parts := by
  induction ps generalizing done with
  | nil => simp
  | cons p ps ih =>
    obtain ⟨next, rest, split⟩ := List.exists_cons_of_ne_nil (l := ps ++ parts) (by simp [more])
    have here : Plain p := plain p (by simp)
    have below := ih (fun q hq => plain q (List.mem_cons_of_mem _ hq)) (done ++ p ++ ['/'])
    rw [split] at below
    rw [List.cons_append, split, matching, if_pos here, List.flatMap_singleton, below]
    simp

theorem slashes_splitOn (text : List Char) :
    (text.splitOn '/').flatMap (fun p => p ++ ['/']) = text ++ ['/'] := by
  have join : ∀ ps : List (List Char), ps ≠ [] →
      ps.flatMap (fun p => p ++ ['/']) = ['/'].intercalate ps ++ ['/'] := by
    intro ps nonempty
    induction ps with
    | nil => exact absurd rfl nonempty
    | cons p ps ih =>
      cases ps with
      | nil => simp
      | cons q qs =>
        rw [List.flatMap_cons, ih (by simp), List.intercalate_cons_cons]
        simp
  rw [join _ (List.splitOn_ne_nil '/' text), List.intercalate_splitOn]

/-- **The expansion below a plain path.** -/
theorem expand_slash {base rest : List Char} (plain : Plain base) (pattern : ¬ Plain rest) :
    expand t cwd (base ++ '/' :: rest) =
      if matching t cwd (base ++ ['/']) (rest.splitOn '/') = [] then [base ++ '/' :: rest]
      else matching t cwd (base ++ ['/']) (rest.splitOn '/') := by
  have whole : ¬ Plain (base ++ '/' :: rest) :=
    fun h => pattern fun c hc => h c (by simp [hc])
  have parts : ∀ p ∈ base.splitOn '/', Plain p := by
    intro p hp c hc
    have mem : c ∈ base ++ ['/'] := by
      rw [← slashes_splitOn, List.mem_flatMap]
      exact ⟨p, hp, by simp [hc]⟩
    rcases List.mem_append.mp mem with mem | mem
    · exact plain c mem
    · rw [List.mem_singleton.mp mem]
      decide
  rw [expand, if_neg whole, List.splitOn_append_cons_self,
    matching_append parts (List.splitOn_ne_nil '/' rest), List.nil_append, slashes_splitOn]

/-- Names that `*` matches. -/
def visible (n : Name) : Bool := n.head? != some '.'

theorem nameMatches_star (n : Name) : nameMatches ['*'] n = visible n := by
  have star : pattern ['*'] = [.star] := rfl
  have all : globMatch [.star] n = true :=
    (globMatch_star [] n).mpr ⟨[], List.nil_suffix, rfl⟩
  rw [nameMatches, star, all, visible, Bool.true_and]
  simp

/-- The names that `*` stands for in a directory. -/
def shown (t : FileTree α) (p : Path) : List Name := (t.names p).filter visible

theorem mem_shown {p : Path} {n : Name} :
    n ∈ shown t p ↔ (t.node (p ++ [n])).isSome = true ∧ visible n = true := by
  rw [shown, List.mem_filter, FileTree.mem_names]

/-- `BASE/*`, in the order of the names. -/
theorem matching_star {base : List Char} : matching t cwd (base ++ ['/']) [['*']] =
    (shown t (resolve cwd (base ++ ['/']))).map fun n => base ++ '/' :: n := by
  have pattern : ¬ Plain ['*'] := by decide
  have stars : (t.names (resolve cwd (base ++ ['/']))).filter (nameMatches ['*']) =
      shown t (resolve cwd (base ++ ['/'])) :=
    List.filter_congr fun n _ => nameMatches_star n
  have same : (shown t (resolve cwd (base ++ ['/']))).map ((base ++ ['/']) ++ ·) =
      (shown t (resolve cwd (base ++ ['/']))).map fun n => base ++ '/' :: n :=
    List.map_congr_left fun n _ => by simp
  simp only [matching, if_neg pattern, stars, same]
  apply List.filter_eq_self.mpr
  intro word hw
  obtain ⟨n, hn, rfl⟩ := List.mem_map.mp hw
  obtain ⟨there, -⟩ := mem_shown.mp hn
  rwa [resolve_slash, components_of_single (t.proper _ n there).single]

/-- `BASE/*/NAME` -/
theorem mem_matching_star_slash {base name word : List Char} (plain : Plain name)
    (single : Single name) :
    word ∈ matching t cwd (base ++ ['/']) [['*'], name] ↔
      ∃ n, visible n = true ∧ (t.node (resolve cwd (base ++ ['/']) ++ [n, name])).isSome = true ∧
        word = base ++ '/' :: n ++ '/' :: name := by
  have pattern : ¬ Plain ['*'] := by decide
  have below : ∀ n, Single n → resolve cwd (base ++ ['/'] ++ n ++ ['/'] ++ name)
      = resolve cwd (base ++ ['/']) ++ [n, name] := by
    intro n hn
    have text : base ++ ['/'] ++ n ++ ['/'] ++ name = base ++ '/' :: (n ++ '/' :: name) := by simp
    rw [text, resolve_slash, components_slash, components_of_single hn,
      components_of_single single]
    rfl
  simp only [matching, if_neg pattern, if_pos plain, List.mem_flatMap, List.mem_filter,
    List.map_cons, List.map_nil, List.mem_singleton, nameMatches_star]
  constructor
  · rintro ⟨n, ⟨there, hn⟩, rfl, found⟩
    have entry := t.proper _ n (FileTree.mem_names.mp there)
    exact ⟨n, hn, by rwa [below n entry.single] at found, by simp⟩
  · rintro ⟨n, hn, found, rfl⟩
    have entry : (t.node (resolve cwd (base ++ ['/']) ++ [n])).isSome = true :=
      FileTree.isSome_of_below ⟨[name], by simp⟩ found
    refine ⟨n, ⟨FileTree.mem_names.mpr entry, hn⟩, by simp, ?_⟩
    rw [← below n (t.proper _ n entry).single] at found
    simpa using found

/-! ### Where the words lie -/

variable {base rest word : List Char}

/-- Expansion goes on from the text before. -/
theorem prefix_of_matching {done : List Char} {parts : List (List Char)}
    (h : word ∈ matching t cwd done parts) : done <+: word := by
  induction parts generalizing done with
  | nil => cases h
  | cons part parts ih =>
    cases parts with
    | nil =>
      obtain ⟨found, -⟩ := List.mem_filter.mp h
      obtain ⟨n, -, rfl⟩ := List.mem_map.mp found
      exact List.prefix_append done n
    | cons next parts =>
      obtain ⟨n, -, found⟩ := List.mem_flatMap.mp h
      have longer := ih found
      rw [List.append_assoc] at longer
      exact (List.prefix_append done _).trans longer

theorem unblank_of_all {text : List Char} (h : (text.all fun c => !isBlank c) = true) :
    ∀ c ∈ text, isBlank c = false := by simpa using h

/-- A text below a bare path is one field. -/
theorem fields_below (bare : Bare base) (blanks : ∀ c ∈ rest, isBlank c = false) :
    fields (base ++ '/' :: rest) = [base ++ '/' :: rest] := by
  apply fields_of_word (by simp)
  intro c hc
  rcases List.mem_append.mp hc with hc | hc
  · exact (bare c hc).1
  · rcases List.mem_cons.mp hc with rfl | hc
    · decide
    · exact blanks c hc

/-- What a word below a bare path is expanded to lies below it. -/
theorem below_of_unquoted (bare : Bare base) (blanks : ∀ c ∈ rest, isBlank c = false)
    (h : word ∈ unquoted t cwd (base ++ '/' :: rest)) : ∃ r, word = base ++ '/' :: r := by
  rw [unquoted, fields_below bare blanks, List.flatMap_singleton] at h
  by_cases plain : Plain rest
  · have whole : Plain (base ++ '/' :: rest) := by
      intro c hc
      rcases List.mem_append.mp hc with hc | hc
      · exact (bare c hc).2
      · rcases List.mem_cons.mp hc with rfl | hc
        · decide
        · exact plain c hc
    rw [expand_plain whole, List.mem_singleton] at h
    exact ⟨rest, h⟩
  · rw [expand_slash bare.plain plain] at h
    split at h
    · exact ⟨rest, List.mem_singleton.mp h⟩
    · obtain ⟨r, rfl⟩ := prefix_of_matching h
      exact ⟨r, by simp⟩

/-- What the shell puts for `*`: the pattern itself where nothing matches. -/
def starred (t : FileTree α) (p : Path) : List Name :=
  if shown t p = [] then [['*']] else shown t p

theorem starred_ne_nil {p : Path} : starred t p ≠ [] := by
  unfold starred
  split
  · simp
  · next some => exact some

theorem proper_starred {p : Path} {n : Name} (h : n ∈ starred t p) : Proper n := by
  unfold starred at h
  split at h
  · rw [List.mem_singleton.mp h]
    decide
  · exact t.proper p n (mem_shown.mp h).1

/-- If all of them are there, something has matched. -/
theorem starred_iff {p : Path} {good : Name → Prop}
    (there : ∀ n, good n → (t.node (p ++ [n])).isSome = true) :
    (∀ n ∈ starred t p, good n) ↔ shown t p ≠ [] ∧ ∀ n ∈ shown t p, good n := by
  unfold starred
  split
  · next empty =>
    refine iff_of_false (fun all => ?_) fun h => h.1 empty
    -- a file with the name of the pattern would match it
    have listed : ['*'] ∈ shown t p :=
      mem_shown.mpr ⟨there ['*'] (all ['*'] (by simp)), by decide⟩
    rw [empty] at listed
    cases listed
  · next some => exact ⟨fun all => ⟨some, all⟩, fun h => h.2⟩

/-- **What `BASE/*` becomes.** -/
theorem unquoted_star (bare : Bare base) : unquoted t cwd (base ++ '/' :: ['*']) =
    (starred t (resolve cwd (base ++ ['/']))).map fun n => base ++ '/' :: n := by
  have pattern : ¬ Plain ['*'] := by decide
  have parts : ['*'].splitOn '/' = [['*']] := by decide
  rw [unquoted, fields_below bare (unblank_of_all (by decide)), List.flatMap_singleton,
    expand_slash bare.plain pattern, parts, matching_star, starred]
  simp only [List.map_eq_nil_iff]
  split <;> rfl

/-- The paths that `BASE/*` stands for. -/
theorem resolve_star {p : Path} (bare : Bare base) (path : resolve cwd (base ++ ['/']) = p) :
    (unquoted t cwd (base ++ '/' :: ['*'])).map (resolve cwd)
      = (starred t p).map fun n => p ++ [n] := by
  rw [unquoted_star bare, path, List.map_map]
  apply List.map_congr_left
  intro n hn
  rw [Function.comp_apply, resolve_slash, path, components_of_single (proper_starred hn).single]

theorem flat_of_mem_splitOn {text part : List Char} (h : part ∈ text.splitOn '/') :
    '/' ∉ part := by
  induction text generalizing part with
  | nil =>
    rw [List.splitOn_nil, List.mem_singleton] at h
    simp [h]
  | cons c text ih =>
    rw [List.splitOn_cons_eq_if_modifyHead] at h
    split at h
    · rcases List.mem_cons.mp h with rfl | h
      · simp
      · exact ih h
    · next other =>
      obtain ⟨first, more, split⟩ :=
        List.exists_cons_of_ne_nil (List.splitOn_ne_nil '/' text)
      rw [split, List.modifyHead_cons] at h
      have below := fun {part} (h : part ∈ first :: more) => ih (split ▸ h)
      rcases List.mem_cons.mp h with rfl | h
      · have other : c ≠ '/' := by simpa using other
        have clean := below (List.mem_cons_self (a := first))
        simp [clean, other.symm]
      · exact below (List.mem_cons_of_mem first h)

/-- A relative word is expanded to relative ones. -/
theorem relative_of_matching {part : List Char} {parts : List (List Char)} (nonempty : part ≠ [])
    (flat : '/' ∉ part) (h : word ∈ matching t cwd [] (part :: parts)) :
    word.head? ≠ some '/' := by
  have names : ∀ n, n ∈ (if Plain part then [part]
      else (t.names (resolve cwd [])).filter (nameMatches part)) → Single n := by
    intro n hn
    split at hn
    · rw [List.mem_singleton.mp hn]
      exact ⟨nonempty, flat⟩
    · exact (t.proper _ n (FileTree.mem_names.mp (List.mem_filter.mp hn).1)).single
  have head : ∀ {n r : List Char}, Single n → (n ++ r).head? ≠ some '/' := by
    intro n r name
    obtain ⟨c, cs, rfl⟩ := List.exists_cons_of_ne_nil name.1
    have other : c ≠ '/' := fun same => name.2 (by simp [same])
    simpa using other
  cases parts with
  | nil =>
    obtain ⟨found, -⟩ := List.mem_filter.mp h
    obtain ⟨n, hn, rfl⟩ := List.mem_map.mp found
    have := head (r := []) (names n hn)
    rwa [List.append_nil] at this
  | cons next parts =>
    obtain ⟨n, hn, found⟩ := List.mem_flatMap.mp h
    obtain ⟨r, rfl⟩ := prefix_of_matching found
    rw [List.nil_append, List.append_assoc]
    exact head (names n hn)

theorem relative_of_unquoted (relative : rest.head? ≠ some '/') (nonempty : rest ≠ [])
    (blanks : ∀ c ∈ rest, isBlank c = false) (h : word ∈ unquoted t cwd rest) :
    word.head? ≠ some '/' := by
  rw [unquoted, fields_of_word nonempty blanks, List.flatMap_singleton] at h
  unfold expand at h
  split at h
  · rwa [List.mem_singleton.mp h]
  · dsimp only at h
    split at h
    · rwa [List.mem_singleton.mp h]
    · -- the first part of the pattern is not empty
      obtain ⟨part, parts, split⟩ :=
        List.exists_cons_of_ne_nil (List.splitOn_ne_nil '/' rest)
      have joined : ['/'].intercalate (rest.splitOn '/') = rest := List.intercalate_splitOn '/'
      rw [split] at h joined
      refine relative_of_matching ?_ ?_ h
      · rintro rfl
        cases parts with
        | nil => exact nonempty (by simpa using joined.symm)
        | cons next parts =>
          rw [List.intercalate_cons_cons] at joined
          exact relative (by rw [← joined]; rfl)
      · have first : part ∈ rest.splitOn '/' := by simp [split]
        exact flat_of_mem_splitOn first

end Files
