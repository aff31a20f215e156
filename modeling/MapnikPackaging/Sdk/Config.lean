/-
`mapnik-config` in the package.

`package_mobile_sdk.sh` writes the build prefix into a `sed` program, between `=` signs and
unescaped, to have it replaced by `$CONFIG_PREFIX`; `build_gdal.sh` does the same to
`gdal-config` with a literal replacement. The two agree unless the path holds an operator of a
pattern, a backslash or the delimiter.

* `relocates_of_plain` — for a path without them the whole text is relocated.
* `not_relocates_of_delimiter`, `plain_of_relocates` — with one of them it is not.
-/

import MapnikPackaging.Sed.Substitute
import MapnikPackaging.Sed.Unescaped

namespace MapnikPackaging.Sdk

open Sed

/-- `BUILD`: `ROOTDIR/out/build-` and the name of the standards and the platform. -/
structure BuildPrefix where
  rootdir : List Char
  /-- `ROOTDIR` comes from `pwd` -/
  absolute : rootdir.head? = some '/'
  line : '\n' ∉ rootdir
  name : List Char
  plain : ∀ c ∈ name, Inert c ∧ c ≠ '='

/-- `/out/build-`, with the name. -/
def BuildPrefix.below (b : BuildPrefix) : List Char := "/out/build-".toList ++ b.name

def BuildPrefix.text (b : BuildPrefix) : List Char := b.rootdir ++ b.below

def configPrefix : List Char := "$CONFIG_PREFIX".toList

/-- `s=$BUILD=\$CONFIG_PREFIX=g` -/
def configProgram (build : List Char) : List Char :=
  's' :: '=' :: (build ++ '=' :: (configPrefix ++ '=' :: ['g']))

/-- The program is accepted and does to every text what the literal replacement does. -/
def Relocates (d : Dialect) (b : BuildPrefix) : Prop :=
  ∃ f, compile d (configProgram b.text) = some f ∧
    ∀ text, onLines f text = replaceAll b.text configPrefix text

/-- Nothing in the path has a meaning to `sed`. -/
def BuildPrefix.Literal (b : BuildPrefix) : Prop :=
  ∀ c ∈ b.rootdir, c ∉ ['\\', '.', '*', '[', '=']

section Prefix

variable {d : Dialect} {b : BuildPrefix}

theorem inert_of_all {t : List Char} (h : t.all (fun c => Inert c ∧ c ≠ '=') = true) :
    ∀ c ∈ t, Inert c ∧ c ≠ '=' :=
  fun c hc => of_decide_eq_true (List.all_eq_true.mp h c hc)

theorem below_inert (b : BuildPrefix) : ∀ c ∈ b.below, Inert c ∧ c ≠ '=' := by
  intro c hc
  rcases List.mem_append.mp hc with hc | hc
  · exact inert_of_all (by decide) c hc
  · exact b.plain c hc

/-- The path begins with a slash and goes on with another behind `ROOTDIR`. -/
theorem text_eq (b : BuildPrefix) : ∃ u end_, b.rootdir = '/' :: u ∧
    b.text = '/' :: (u ++ '/' :: 'o' :: end_) ∧ ∀ a ∈ '/' :: 'o' :: end_, Inert a := by
  obtain ⟨u, hu⟩ := List.head?_eq_some_iff.mp b.absolute
  refine ⟨u, "ut/build-".toList ++ b.name, hu, by rw [BuildPrefix.text, hu]; rfl, fun a ha => ?_⟩
  exact (below_inert b a ha).1

theorem text_line (b : BuildPrefix) : '\n' ∉ b.text := by
  intro nl
  rcases List.mem_append.mp nl with nl | nl
  · exact b.line nl
  · exact (below_inert b _ nl).1 (by simp)

theorem text_ne_nil (b : BuildPrefix) : b.text ≠ [] := by
  obtain ⟨u, end_, -, text, -⟩ := text_eq b
  simp [text]

theorem slash_mem (b : BuildPrefix) : '/' ∈ b.text := by
  obtain ⟨u, end_, -, text, -⟩ := text_eq b
  simp [text]

/-- Nothing in the path ends or escapes in a field of the program. -/
theorem text_fields (backslash : '\\' ∉ b.rootdir) (delimiter : '=' ∉ b.rootdir) :
    ∀ c ∈ b.text, c ≠ '=' ∧ c ≠ '\n' ∧ c ≠ '\\' := by
  intro c hc
  refine ⟨?_, fun same => text_line b (same ▸ hc), ?_⟩ <;> rintro rfl <;>
    rcases List.mem_append.mp hc with hc | hc
  · exact delimiter hc
  · exact (below_inert b _ hc).2 rfl
  · exact backslash hc
  · exact (below_inert b _ hc).1 (by simp)

theorem replToks_configPrefix : replToks false configPrefix = some (configPrefix.map .chr) := by
  decide

theorem expand_configPrefix (m : List Char) : expand (configPrefix.map .chr) m = configPrefix := by
  simp [expand, List.flatMap_map]

/-- The program, where the delimiter is not in the path. -/
theorem compile_configProgram (fields : ∀ c ∈ b.text, c ≠ '=' ∧ c ≠ '\n' ∧ c ≠ '\\') :
    compile d (configProgram b.text) =
      (parse d b.text).map fun r => substitute r (configPrefix.map .chr) := by
  have conf : ∀ c ∈ configPrefix, c ≠ '=' ∧ c ≠ '\n' ∧ c ≠ '\\' := by
    have all : configPrefix.all (fun c => c ≠ '=' ∧ c ≠ '\n' ∧ c ≠ '\\') = true := by decide
    exact fun c hc => of_decide_eq_true (List.all_eq_true.mp all c hc)
  rw [configProgram, compile_eq (by decide) (text_ne_nil b) (readField_plain fields _)
    (readField_plain conf _), replToks_configPrefix]
  exact (Option.map_eq_bind).symm

/-! ### Literal paths -/

theorem relocates_of_plain (plain : b.Literal) : Relocates d b := by
  obtain ⟨u, end_, root, text, inert⟩ := text_eq b
  have fields := text_fields (fun h => plain _ h (by simp)) fun h => plain _ h (by simp)
  have literal : parse d b.text = some (lits b.text) := by
    rw [text]
    refine parse_literal (by decide) (fun a ha operator => ?_) inert
    exact plain a (root ▸ List.mem_cons_of_mem _ ha) (List.subset_def.mp (by decide) operator)
  refine ⟨_, by rw [compile_configProgram fields, literal, Option.map_some], fun t => ?_⟩
  have each : substitute (lits b.text) (configPrefix.map .chr) = replaceAll b.text configPrefix := by
    funext line
    rw [substitute, scan_lits (text_ne_nil b), expand_configPrefix]
    rfl
  rw [each, onLines_replaceAll (text_line b) (by decide) (text_ne_nil b)]

/-! ### The delimiter in the path -/

/-- What follows the delimiter becomes the replacement, and the rest is no flag. -/
theorem not_relocates_of_delimiter (backslash : '\\' ∉ b.rootdir) (once : b.rootdir.count '=' = 1) :
    ¬ Relocates d b := by
  obtain ⟨pattern, rest, split⟩ := List.append_of_mem
    (List.count_pos_iff.mp (once ▸ Nat.one_pos))
  rw [split, List.count_append, List.count_cons_self] at once
  have plain : ∀ t, (∀ c ∈ t, c ∈ b.rootdir) → List.count '=' t = 0 →
      ∀ c ∈ t, c ≠ '=' ∧ c ≠ '\n' ∧ c ≠ '\\' := by
    intro t ht none c hc
    exact ⟨fun same => List.count_eq_zero.mp none (same ▸ hc), fun same => b.line (same ▸ ht c hc),
      fun same => backslash (same ▸ ht c hc)⟩
  have first := plain pattern (fun c hc => by simp [split, hc]) (by omega)
  have second : ∀ c ∈ rest ++ b.below, c ≠ '=' ∧ c ≠ '\n' ∧ c ≠ '\\' := by
    intro c hc
    rcases List.mem_append.mp hc with hc | hc
    · exact plain rest (fun c hc => by simp [split, hc]) (by omega) c hc
    · have inert := below_inert b c hc
      exact ⟨inert.2, fun same => inert.1 (by simp [same]), fun same => inert.1 (by simp [same])⟩
  have program : configProgram b.text = 's' :: '=' :: (pattern ++ '=' ::
      ((rest ++ b.below) ++ '=' :: (configPrefix ++ '=' :: ['g']))) := by
    simp [configProgram, BuildPrefix.text, split]
  rintro ⟨f, accepted, -⟩
  rw [program, compile_flags (readField_plain first _) (readField_plain second _) (by decide)]
    at accepted
  cases accepted

/-! ### Operators in the path -/

/-- Where the program changes a line, its pattern matches in there. -/
theorem exists_match {r : Re} {repl : List Char → List Char} {line : List Char}
    (changed : scan r.longest repl true false 0 line ≠ line) :
    ∃ start s t, s <:+ line ∧ t ∈ r.rests start s := by
  by_contra none
  refine changed (scan_of_none (fun start s hs => ?_) true false)
  have empty : r.rests start s = [] := List.eq_nil_iff_forall_not_mem.mpr fun t ht =>
    none ⟨start, s, t, hs, ht⟩
  rw [Re.longest, empty]
  rfl

/-- With an operator the pattern matches a word that is not the path. -/
theorem plain_of_relocates (backslash : '\\' ∉ b.rootdir) (delimiter : '=' ∉ b.rootdir)
    (relocates : Relocates d b) : b.Literal := by
  obtain ⟨u, end_, root, text, inert⟩ := text_eq b
  have hb : '\\' ∉ u := fun h => backslash (root ▸ List.mem_cons_of_mem _ h)
  by_contra notPlain
  have operator : '.' ∈ u ∨ '[' ∈ u ∨ '*' ∈ u := by
    by_contra none
    simp only [not_or] at none
    apply notPlain
    intro c hc special
    have slash : c ≠ '/' := by
      rintro rfl
      exact absurd special (by decide)
    have hu : c ∈ u := (List.mem_cons.mp (root ▸ hc)).resolve_left slash
    simp only [List.mem_cons, List.not_mem_nil, or_false] at special
    rcases special with rfl | rfl | rfl | rfl | rfl
    · exact backslash hc
    · exact none.1 hu
    · exact none.2.2 hu
    · exact none.2.1 hu
    · exact delimiter hc
  obtain ⟨f, accepted, literal⟩ := relocates
  rw [compile_configProgram (text_fields backslash delimiter)] at accepted
  obtain ⟨r, parsed, rfl⟩ := Option.map_eq_some_iff.mp accepted
  rw [text] at parsed
  obtain ⟨simple, needs, size, smaller⟩ := parse_unescaped (by decide) hb inert parsed
  rw [← text] at simple size smaller
  -- the path itself is replaced, so the pattern matches something
  have self : substitute r (configPrefix.map .chr) b.text ≠ b.text := by
    have replaced := literal b.text
    rw [onLines_line (text_line b), replaceAll_self (text_ne_nil b)] at replaced
    rw [replaced]
    exact fun same => absurd (same ▸ slash_mem b) (by decide)
  obtain ⟨start, s, t, hs, ht⟩ := exists_match self
  let P : Char → Prop := fun c => c ≠ '\n' ∧ ('[' ∉ u → c ≠ '.')
  have simple' : r.Simple P ('[' ∈ u) := simple.mono
    (fun c hc => ⟨fun same => text_line b (same ▸ hc.1), fun _ => hc.2⟩) fun h => h
  obtain ⟨w, short, hw, matches_⟩ := exists_short_word simple'
    (by simp [P]) (fun bracket c hc => ⟨hc, fun none => absurd bracket none⟩)
    (fun nl => text_line b (hs.subset nl)) ht
  have whole : [] ∈ r.rests true w := by simpa using matches_ true []
  have other : ¬ b.text <:+: w := by
    intro inside
    have length := inside.length_le
    obtain rfl : b.text = w := inside.eq_of_length (by omega)
    rcases operator with dot | bracket | asterisk
    · by_cases bracket : '[' ∈ u
      · have := smaller (.inl bracket)
        omega
      · exact (hw '.' (text ▸ by simp [dot])).2 bracket rfl
    · have := smaller (.inl bracket)
      omega
    · have := smaller (.inr asterisk)
      omega
  have replaced := literal w
  rw [onLines_line fun nl => (hw _ nl).1 rfl, replaceAll_of_not_infix other, substitute,
    scan_all (longest_all whole), expand_configPrefix] at replaced
  exact absurd (replaced ▸ needs_mem needs whole) (by decide)

/-- **When `mapnik-config` is relocated**: where the path has no backslash, operator or delimiter,
and, if it has no backslash and the delimiter at most once, only there. -/
theorem relocates_iff (d : Dialect) (b : BuildPrefix) : (b.Literal → Relocates d b) ∧
    ('\\' ∉ b.rootdir → b.rootdir.count '=' ≤ 1 → (Relocates d b ↔ b.Literal)) := by
  refine ⟨relocates_of_plain, fun backslash once => ⟨fun relocates => ?_, relocates_of_plain⟩⟩
  have delimiter : '=' ∉ b.rootdir := by
    intro h
    have positive := List.count_pos_iff.mpr h
    exact not_relocates_of_delimiter backslash (by omega) relocates
  exact plain_of_relocates backslash delimiter relocates

end Prefix

/-! ### Two checkouts -/

/-- `/Users/build/osx/out/build-cpp11-libcpp-x86_64-macosx` -/
def homePrefix : BuildPrefix :=
  ⟨"/Users/build/osx".toList, rfl, by decide, "cpp11-libcpp-x86_64-macosx".toList,
    inert_of_all (by decide)⟩

theorem relocates_home : Relocates ⟨true⟩ homePrefix := by
  apply (relocates_iff ⟨true⟩ homePrefix).1
  intro c hc
  have all : homePrefix.rootdir.all (fun c => c ∉ ['\\', '.', '*', '[', '=']) = true := by decide
  exact of_decide_eq_true (List.all_eq_true.mp all c hc)

/-- `/tmp/osx[1]/out/build-cpp11-libcpp-x86_64-macosx` -/
def bracketPrefix : BuildPrefix :=
  ⟨"/tmp/osx[1]".toList, rfl, by decide, "cpp11-libcpp-x86_64-macosx".toList,
    inert_of_all (by decide)⟩

/-- In `/tmp/osx[1]` the path stays in `mapnik-config`. -/
theorem relocates_bracket :
    (compile ⟨true⟩ (configProgram bracketPrefix.text)).map
      (onLines · bracketPrefix.text) = some bracketPrefix.text ∧
    replaceAll bracketPrefix.text configPrefix bracketPrefix.text = configPrefix ∧
    ¬ Relocates ⟨true⟩ bracketPrefix := by
  refine ⟨by decide, by decide, fun relocates => ?_⟩
  exact plain_of_relocates (by decide) (by decide) relocates '[' (by decide) (by simp)

end MapnikPackaging.Sdk
