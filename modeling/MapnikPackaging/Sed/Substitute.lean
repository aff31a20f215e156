/-
The substitute command of `sed`, with the flag `g`.

`compile` reads a program of one command `s/PATTERN/REPLACEMENT/g`, for any delimiter, and gives
the function it applies to a line. `replaceAll` is the literal replacement of every leftmost
non-overlapping occurrence, stated without any syntax.

* `scan_lits` — for a pattern of characters the two agree.
* `replaceAll_append_cons` — a character outside the pattern separates the replacements, so that
  `replaceAll_splitOnP` works part by part and `onLines_replaceAll` on the text as a whole.
* `scan_all`, `scan_of_none` — a line that is one match is replaced as a whole, and a line
  without one is left alone.
-/

import MapnikPackaging.Sed.Regex

namespace Sed

/-! ### Syntax -/

/-- The pieces of a replacement; `whole` is `&`. -/
inductive RTok where
  | chr (c : Char)
  | whole
deriving DecidableEq, Repr

/-- Read a replacement; references to groups are refused. The flag says that a backslash
precedes. -/
def replToks : Bool → List Char → Option (List RTok)
  | false, [] => some []
  | true, [] => none
  | false, c :: cs =>
    if c = '\\' then replToks true cs
    else (replToks false cs).map ((if c = '&' then .whole else .chr c) :: ·)
  | true, c :: cs => if c.isDigit then none else (replToks false cs).map (.chr c :: ·)

/-- What a replacement becomes for a match. -/
def expand (ts : List RTok) (matched : List Char) : List Char :=
  ts.flatMap fun
    | .chr c => [c]
    | .whole => matched

/-- Read up to the next delimiter; a delimiter after a backslash loses the backslash. -/
def readField (delim : Char) : Bool → List Char → Option (List Char × List Char)
  | _, [] => none
  | false, c :: cs =>
    if c = delim then some ([], cs)
    else if c = '\n' then none
    else if c = '\\' then readField delim true cs
    else (readField delim false cs).map fun (field, rest) => (c :: field, rest)
  | true, c :: cs =>
    (readField delim false cs).map fun (field, rest) =>
      (if c = delim then (c :: field, rest) else ('\\' :: c :: field, rest))

/-! ### Substitution -/

/-- Replace from left to right. `longest` is asked at each place for the length of a match, with
whether the place is the start of the line; `skip` characters still belong to the last match,
and an empty match right behind it does not count. -/
def scan (longest : Bool → List Char → Option Nat) (repl : List Char → List Char) :
    Bool → Bool → Nat → List Char → List Char
  | _, _, _ + 1, [] => []
  | _, _, skip + 1, _ :: cs => scan longest repl false true skip cs
  | start, after, 0, [] =>
    match longest start [] with
    | some 0 => if after then [] else repl []
    | _ => []
  | start, after, 0, c :: cs =>
    match longest start (c :: cs) with
    | some (n + 1) => repl ((c :: cs).take (n + 1)) ++ scan longest repl false true n cs
    | some 0 => (if after then [] else repl []) ++ c :: scan longest repl false false 0 cs
    | none => c :: scan longest repl false false 0 cs

def substitute (r : Re) (ts : List RTok) (line : List Char) : List Char :=
  scan r.longest (expand ts) true false 0 line

/-- The function of a program `s/PATTERN/REPLACEMENT/g`. -/
def compile (d : Dialect) : List Char → Option (List Char → List Char)
  | 's' :: delim :: program => do
    if delim = '\\' ∨ delim = '\n' then none
    let (pattern, program) ← readField delim false program
    let (replacement, flags) ← readField delim false program
    if pattern = [] ∨ flags ≠ ['g'] then none
    let r ← parse d pattern
    let ts ← replToks false replacement
    return substitute r ts
  | _ => none

theorem compile_eq {d : Dialect} {delim : Char} {program rest pattern replacement : List Char}
    (hdelim : delim ≠ '\\' ∧ delim ≠ '\n') (nonempty : pattern ≠ [])
    (hpattern : readField delim false program = some (pattern, rest))
    (hreplacement : readField delim false rest = some (replacement, ['g'])) :
    compile d ('s' :: delim :: program) =
      (parse d pattern).bind fun r => (replToks false replacement).map (substitute r) := by
  simp only [compile, hdelim, hpattern, hreplacement, nonempty, or_self, if_false, bind,
    Option.bind, ne_eq, not_true_eq_false]
  cases parse d pattern with
  | none => rfl
  | some r => cases replToks false replacement <;> rfl

/-- A field without a backslash is read as it stands. -/
theorem readField_plain {delim : Char} {t : List Char}
    (h : ∀ c ∈ t, c ≠ delim ∧ c ≠ '\n' ∧ c ≠ '\\') (rest : List Char) :
    readField delim false (t ++ delim :: rest) = some (t, rest) := by
  induction t with
  | nil => simp [readField]
  | cons c t ih =>
    have hc := h c List.mem_cons_self
    simp [readField, hc, ih fun a ha => h a (List.mem_cons_of_mem _ ha)]

/-- Flags other than the one are refused. -/
theorem compile_flags {d : Dialect} {delim : Char}
    {program rest pattern replacement flags : List Char}
    (hpattern : readField delim false program = some (pattern, rest))
    (hreplacement : readField delim false rest = some (replacement, flags)) (other : flags ≠ ['g']) :
    compile d ('s' :: delim :: program) = none := by
  simp only [compile, hpattern, hreplacement, bind, Option.bind]
  split
  · rfl
  · simp [other]

/-! ### Literal replacement -/

/-- Every leftmost non-overlapping occurrence of `p` becomes `q`; `skip` characters still belong
to the last one. -/
def replaceAllFrom (p q : List Char) : Nat → List Char → List Char
  | _, [] => []
  | skip + 1, _ :: cs => replaceAllFrom p q skip cs
  | 0, c :: cs =>
    if p <+: c :: cs then q ++ replaceAllFrom p q (p.length - 1) cs
    else c :: replaceAllFrom p q 0 cs

def replaceAll (p q : List Char) (line : List Char) : List Char := replaceAllFrom p q 0 line

section Literal

variable {p q : List Char}

/-- A line without one of the pattern's characters stays as it is. -/
theorem replaceAll_of_not_mem {s : List Char} {c : Char} (hp : c ∈ p) (hs : c ∉ s) :
    replaceAll p q s = s := by
  rw [replaceAll]
  induction s with
  | nil => rfl
  | cons d s ih =>
    have none : ¬ p <+: d :: s := fun prefixed => hs (prefixed.subset hp)
    rw [replaceAllFrom, if_neg none, ih fun h => hs (List.mem_cons_of_mem _ h)]

theorem replaceAllFrom_skip (s : List Char) : replaceAllFrom p q s.length s = [] := by
  induction s with
  | nil => rfl
  | cons c s ih => exact ih

/-- The pattern itself becomes the replacement. -/
theorem replaceAll_self (h : p ≠ []) : replaceAll p q p = q := by
  obtain ⟨c, s, rfl⟩ := List.exists_cons_of_ne_nil h
  rw [replaceAll, replaceAllFrom, if_pos (List.prefix_refl _), List.length_cons,
    Nat.add_sub_cancel, replaceAllFrom_skip, List.append_nil]

theorem mem_replaceAllFrom {c : Char} {skip : ℕ} {s : List Char}
    (h : c ∈ replaceAllFrom p q skip s) : c ∈ q ∨ c ∈ s := by
  induction s generalizing skip with
  | nil => cases h
  | cons d s ih =>
    cases skip with
    | succ skip => exact (ih h).imp_right (List.mem_cons_of_mem d)
    | zero =>
      rw [replaceAllFrom] at h
      split at h
      · rcases List.mem_append.mp h with h | h
        · exact .inl h
        · exact (ih h).imp_right (List.mem_cons_of_mem d)
      · rcases List.mem_cons.mp h with rfl | h
        · exact .inr List.mem_cons_self
        · exact (ih h).imp_right (List.mem_cons_of_mem d)

/-- A line without the pattern stays as it is. -/
theorem replaceAll_of_not_infix {s : List Char} (h : ¬ p <:+: s) : replaceAll p q s = s := by
  rw [replaceAll]
  induction s with
  | nil => rfl
  | cons c s ih =>
    rw [List.infix_cons_iff, not_or] at h
    rw [replaceAllFrom, if_neg h.1, ih h.2]

theorem prefix_of_append_cons {c : Char} {s t : List Char} (outside : c ∉ p)
    (h : p <+: s ++ c :: t) : p <+: s := by
  by_cases short : p.length ≤ s.length
  · exact List.prefix_of_prefix_length_le h (List.prefix_append s _) short
  · have through : s ++ [c] <+: s ++ c :: t := by simp
    have inside := List.prefix_of_prefix_length_le through h (by simp; omega)
    exact absurd (inside.subset (by simp)) outside

/-- A character outside the pattern separates what is replaced before it and behind it. -/
theorem replaceAllFrom_append_cons {c : Char} (outside : c ∉ p) (nonempty : p ≠ []) {skip : ℕ}
    (s t : List Char) (inside : skip ≤ s.length) :
    replaceAllFrom p q skip (s ++ c :: t) = replaceAllFrom p q skip s ++ c :: replaceAll p q t := by
  induction s generalizing skip with
  | nil =>
    obtain rfl : skip = 0 := Nat.le_zero.mp inside
    have none : ¬ p <+: c :: t := by
      intro prefixed
      exact nonempty (List.prefix_nil.mp (prefix_of_append_cons (s := []) outside prefixed))
    simp only [List.nil_append, replaceAllFrom, if_neg none, replaceAll]
  | cons d s ih =>
    cases skip with
    | succ skip => exact ih (Nat.le_of_succ_le_succ inside)
    | zero =>
      rw [List.cons_append, replaceAllFrom, replaceAllFrom]
      by_cases prefixed : p <+: d :: s
      · have short := prefixed.length_le
        rw [List.length_cons] at short
        have longer : p <+: d :: (s ++ c :: t) := prefixed.trans (List.prefix_append (d :: s) _)
        rw [if_pos prefixed, if_pos longer, ih (by omega), List.append_assoc]
      · have none : ¬ p <+: d :: (s ++ c :: t) := fun h =>
          prefixed (prefix_of_append_cons (s := d :: s) outside h)
        rw [if_neg prefixed, if_neg none, ih (Nat.zero_le _)]
        rfl

theorem replaceAll_append_cons {c : Char} (outside : c ∉ p) (nonempty : p ≠ []) (s t : List Char) :
    replaceAll p q (s ++ c :: t) = replaceAll p q s ++ c :: replaceAll p q t :=
  replaceAllFrom_append_cons outside nonempty s t (Nat.zero_le _)

/-- Separators outside the pattern and the replacement divide the text as before. -/
theorem replaceAll_splitOnP {sep : Char → Bool} (outside : ∀ c, sep c = true → c ∉ p)
    (kept : ∀ c ∈ q, sep c = false) (nonempty : p ≠ []) (s : List Char) :
    (replaceAll p q s).splitOnP sep = (s.splitOnP sep).map (replaceAll p q) := by
  induction hn : s.length using Nat.strongRecOn generalizing s with
  | ind n ih =>
    subst hn
    by_cases divided : ∃ c ∈ s, sep c = true
    · obtain ⟨c, hc, hsep⟩ := divided
      obtain ⟨u, v, rfl⟩ := List.append_of_mem hc
      have before : u.length < (u ++ c :: v).length := by simp
      have behind : v.length < (u ++ c :: v).length := by
        rw [List.length_append, List.length_cons]
        omega
      rw [replaceAll_append_cons (outside c hsep) nonempty, List.splitOnP_append_cons _ _ hsep,
        List.splitOnP_append_cons _ _ hsep, List.map_append, ih _ before _ rfl, ih _ behind _ rfl]
    · have whole : ∀ c ∈ s, sep c = false := fun c hc =>
        Bool.eq_false_iff.mpr fun h => divided ⟨c, hc, h⟩
      rw [List.splitOnP_eq_singleton whole, List.map_singleton]
      exact List.splitOnP_eq_singleton fun c hc =>
        (mem_replaceAllFrom hc).elim (kept c) (whole c)

/-- **A pattern of characters is replaced literally.** -/
theorem scan_lits (h : p ≠ []) (repl : List Char → List Char) (start after : Bool) (skip : Nat)
    (s : List Char) :
    scan (lits p).longest repl start after skip s = replaceAllFrom p (repl p) skip s := by
  induction s generalizing start after skip with
  | nil =>
    cases skip with
    | succ skip => rfl
    | zero =>
      have none : ¬ p <+: [] := fun prefixed => h (List.prefix_nil.mp prefixed)
      simp only [scan, longest_lits, if_neg none, replaceAllFrom]
  | cons c s ih =>
    cases skip with
    | succ skip => exact ih false true skip
    | zero =>
      simp only [scan, longest_lits, replaceAllFrom]
      by_cases prefixed : p <+: c :: s
      · obtain ⟨n, hn⟩ : ∃ n, p.length = n + 1 :=
          Nat.exists_eq_add_one.mpr (List.length_pos_iff.mpr h)
        have matched : (c :: s).take (n + 1) = p := by
          rw [← hn]
          exact (List.prefix_iff_eq_take.mp prefixed).symm
        simp only [if_pos prefixed, hn, matched, ih, Nat.add_sub_cancel]
      · simp only [if_neg prefixed, ih]

/-! ### Texts of several lines -/

/-- A program runs on each line of a text. -/
def onLines (f : List Char → List Char) (text : List Char) : List Char :=
  ['\n'].intercalate ((text.splitOn '\n').map f)

/-- **Replacing in each line replaces in the text**, for a pattern within a line. -/
theorem onLines_replaceAll (hp : '\n' ∉ p) (hq : '\n' ∉ q) (nonempty : p ≠ []) (text : List Char) :
    onLines (replaceAll p q) text = replaceAll p q text := by
  have outside : ∀ c, (c == '\n') = true → c ∉ p := fun c hc => by rwa [beq_iff_eq.mp hc]
  have kept : ∀ c ∈ q, (c == '\n') = false := fun c hc =>
    beq_eq_false_iff_ne.mpr fun h => hq (h ▸ hc)
  have parts := replaceAll_splitOnP outside kept nonempty text
  rw [← List.splitOn_eq_splitOnP, ← List.splitOn_eq_splitOnP] at parts
  rw [onLines, ← parts, List.intercalate_splitOn]

theorem onLines_line {line : List Char} (nl : '\n' ∉ line) (f : List Char → List Char) :
    onLines f line = f line := by
  have whole : line.splitOn '\n' = [line] := by
    rw [List.splitOn_eq_splitOnP]
    exact List.splitOnP_eq_singleton fun c hc => beq_eq_false_iff_ne.mpr fun h => nl (h ▸ hc)
  rw [onLines, whole]
  simp

end Literal

section Whole

variable {longest : Bool → List Char → Option Nat} {repl : List Char → List Char}

theorem scan_skip (start : Bool) (s : List Char) :
    scan longest repl start true s.length s = [] := by
  induction s generalizing start with
  | nil =>
    simp only [List.length_nil, scan]
    split <;> rfl
  | cons c s ih => exact ih false

/-- A line without a match stays as it is. -/
theorem scan_of_none {line : List Char} (none : ∀ start s, s <:+ line → longest start s = none)
    (start after : Bool) : scan longest repl start after 0 line = line := by
  induction line generalizing start after with
  | nil => simp [scan, none start [] List.nil_suffix]
  | cons c line ih =>
    rw [scan, none start (c :: line) List.suffix_rfl]
    exact congrArg (c :: ·) (ih (fun start s hs => none start s (hs.trans (List.suffix_cons c line)))
      false false)

/-- A line that is one match is replaced as a whole. -/
theorem scan_all {s : List Char} (h : longest true s = some s.length) :
    scan longest repl true false 0 s = repl s := by
  cases s with
  | nil => simp [scan, h]
  | cons c s =>
    simp only [scan, h, List.length_cons, scan_skip, List.append_nil]
    rw [← List.length_cons (a := c), List.take_length]

end Whole

end Sed
