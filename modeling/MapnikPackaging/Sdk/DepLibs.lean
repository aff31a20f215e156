/-
The static dependencies in `package_mobile_sdk.sh`.

For a single architecture the script copies the archives that `mapnik-config --dep-libs`
names. It gets the names from the linker flags by deleting `-l` wherever it stands, and an
archive that does not exist is passed over. `decodes_iff` says for which names the loop visits
what was printed.
-/

import Mathlib.Algebra.Order.BigOperators.Group.List
import Mathlib.Algebra.Order.Ring.Nat
import MapnikPackaging.Shell.Words

namespace MapnikPackaging.Sdk

open Sed Shell

/-! ### The loop -/

/-- The name of a library: one word of the shell, which expands to itself. -/
structure LibName where
  text : List Char
  nonempty : text ≠ []
  word : ∀ c ∈ text, isBlank c = false ∧ c ∉ ['*', '?', '[']

/-- The files of one directory, by name. -/
structure Folder (α : Type) where
  file : List Char → Option α
  flat : ∀ n, '/' ∈ n → file n = none

/-- The program that deletes every `-l`. -/
def stripFlags : List Char := "s/-l//g".toList

/-- What `mapnik-config --dep-libs` prints, through `sed`, as the words of the loop. -/
def depNames (d : Dialect) (printed : List Char) : Option (List (List Char)) :=
  (compile d stripFlags).map fun f => fields (onLines f printed)

/-- `lib${i}.a`. -/
def archive (i : List Char) : List Char := "lib".toList ++ i ++ ".a".toList

section Loop

variable {α : Type}

/-- The body of the loop: copy the archive if it is there. -/
def copyDep (build : Folder α) (sdk : Folder α) (i : List Char) : Folder α where
  file n := if n = archive i ∧ (build.file n).isSome then build.file n else sdk.file n
  flat n hn := by rw [build.flat n hn, sdk.flat n hn, ite_self]

def copyDeps (build : Folder α) (visited : List (List Char)) (sdk : Folder α) : Folder α :=
  visited.foldl (copyDep build) sdk

/-- A visited archive is copied, and stays so. -/
theorem copyDeps_file (build : Folder α) {visited : List (List Char)} {i : List Char} {a : α}
    (hi : i ∈ visited) (present : build.file (archive i) = some a) (sdk : Folder α) :
    (copyDeps build visited sdk).file (archive i) = some a := by
  -- a later step writes the same archive or leaves it alone
  have stays : ∀ (rest : List (List Char)) (sdk : Folder α), sdk.file (archive i) = some a →
      (copyDeps build rest sdk).file (archive i) = some a := by
    intro rest
    induction rest with
    | nil => exact fun sdk h => h
    | cons j rest ih =>
      intro sdk h
      apply ih _
      show (if archive i = archive j ∧ (build.file (archive i)).isSome then build.file (archive i)
        else sdk.file (archive i)) = some a
      split
      · exact present
      · exact h
  induction visited generalizing sdk with
  | nil => cases hi
  | cons j visited ih =>
    rcases List.mem_cons.mp hi with rfl | hi
    · apply stays visited _
      simp [copyDep, present]
    · exact ih hi _

end Loop

/-! ### What is visited -/

theorem compile_stripFlags (d : Dialect) :
    compile d stripFlags = some (replaceAll "-l".toList []) := by
  have read : compile d stripFlags = (parse d "-l".toList).bind fun r =>
      (replToks false []).map (substitute r) :=
    compile_eq (by decide) (by decide) rfl rfl
  have pattern : parse d "-l".toList = some (lits "-l".toList) := by
    cases d with
    | mk alternation => cases alternation <;> rfl
  rw [read, pattern]
  simp only [replToks, Option.bind_some, Option.map_some, Option.some.injEq]
  funext line
  exact scan_lits (by decide) _ true false 0 line

/-- **The deletion acts on each word.** -/
theorem depNames_eq (d : Dialect) (printed : List Char) : depNames d printed =
    some (((fields printed).map (replaceAll "-l".toList [])).filter (· ≠ [])) := by
  rw [depNames, compile_stripFlags, Option.map_some,
    onLines_replaceAll (by decide) (by decide) (by decide),
    fields_replaceAll (by simp [isBlank]) (by simp) (by decide)]

section Deletion

variable {p : List Char}

theorem length_replaceAllFrom_le (skip : ℕ) (s : List Char) :
    (replaceAllFrom p [] skip s).length ≤ s.length := by
  induction s generalizing skip with
  | nil => simp [replaceAllFrom]
  | cons c s ih =>
    cases skip with
    | succ skip => exact Nat.le_trans (ih skip) (Nat.le_succ _)
    | zero =>
      unfold replaceAllFrom
      split
      · exact Nat.le_trans (ih _) (Nat.le_succ _)
      · exact Nat.succ_le_succ (ih 0)

/-- Where there is something to delete, the text gets shorter. -/
theorem length_replaceAll_lt {s : List Char} (nonempty : p ≠ []) (h : p <:+: s) :
    (replaceAll p [] s).length < s.length := by
  induction s with
  | nil => exact absurd (List.infix_nil.mp h) nonempty
  | cons c s ih =>
    unfold replaceAll replaceAllFrom
    split
    · exact Nat.lt_succ_of_le (length_replaceAllFrom_le _ s)
    · rename_i none
      exact Nat.succ_lt_succ (ih ((List.infix_cons_iff.mp h).resolve_left none))

end Deletion

/-- The flag itself goes in any case. -/
theorem replaceAll_flag (n : List Char) :
    replaceAll "-l".toList [] ("-l".toList ++ n) = replaceAll "-l".toList [] n := by
  show replaceAllFrom ['-', 'l'] [] 0 ('-' :: 'l' :: n) = replaceAllFrom ['-', 'l'] [] 0 n
  simp [replaceAllFrom]

/-! ### Decoding -/

section Flags

variable {d : Dialect} {names : List LibName} {printed : List Char}

theorem depNames_flags (words : fields printed = names.map fun n => "-l".toList ++ n.text) :
    depNames d printed =
      some ((names.map fun n => replaceAll "-l".toList [] n.text).filter (· ≠ [])) := by
  have flags : (replaceAll "-l".toList [] ∘ fun n : LibName => "-l".toList ++ n.text)
      = fun n => replaceAll "-l".toList [] n.text := funext fun n => replaceAll_flag n.text
  rw [depNames_eq, words, List.map_map, flags]

/-- Names without `-l` come out as they are. -/
theorem depNames_decoded (words : fields printed = names.map fun n => "-l".toList ++ n.text)
    (none : ∀ n ∈ names, ¬ "-l".toList <:+: n.text) :
    depNames d printed = some (names.map LibName.text) := by
  have kept : (names.map fun n => replaceAll "-l".toList [] n.text) = names.map LibName.text :=
    List.map_congr_left fun n hn => replaceAll_of_not_infix (none n hn)
  rw [depNames_flags words, kept, List.filter_eq_self.mpr]
  intro w hw
  obtain ⟨n, -, rfl⟩ := List.mem_map.mp hw
  simpa using n.nonempty

end Flags

/-- The loop visits exactly the names, and the archives among `BUILD/lib` are copied. -/
def DecodesFlags (d : Dialect) (names : List LibName) (printed : List Char) : Prop :=
  depNames d printed = some (names.map LibName.text) ∧
    ∀ (α : Type) (build sdk : Folder α), ∀ n ∈ names, (build.file (archive n.text)).isSome →
      (copyDeps build ((depNames d printed).getD []) sdk).file (archive n.text)
        = build.file (archive n.text)

/-- **The flags are decoded exactly when no name holds `-l` itself.** -/
theorem decodes_iff {d : Dialect} {names : List LibName} {printed : List Char}
    (words : fields printed = names.map fun n => "-l".toList ++ n.text) :
    DecodesFlags d names printed ↔ ∀ n ∈ names, ¬ "-l".toList <:+: n.text := by
  constructor
  · rintro ⟨same, -⟩ n hn holds
    rw [depNames_flags words, Option.some.injEq] at same
    -- the names together would be as long as what is left of them
    have shorter : ∀ ns : List LibName, (∃ n ∈ ns, "-l".toList <:+: n.text) →
        ((ns.map fun n => replaceAll "-l".toList [] n.text).map List.length).sum
          < ((ns.map LibName.text).map List.length).sum := by
      intro ns hns
      rw [List.map_map, List.map_map]
      obtain ⟨n, hn, holds⟩ := hns
      refine List.sum_lt_sum _ _ (fun n _ => length_replaceAllFrom_le 0 n.text) ⟨n, hn, ?_⟩
      exact length_replaceAll_lt (by decide) holds
    have filtered : ∀ ws : List (List Char),
        ((ws.filter (· ≠ [])).map List.length).sum = (ws.map List.length).sum := by
      intro ws
      induction ws with
      | nil => rfl
      | cons w ws ih =>
        by_cases none : w = []
        · simpa [none] using ih
        · simp only [ne_eq, none, not_false_eq_true, decide_true, List.filter_cons_of_pos,
            List.map_cons, List.sum_cons, ← ih]
    have total := shorter names ⟨n, hn, holds⟩
    rw [← same, filtered] at total
    exact Nat.lt_irrefl _ total
  · intro none
    have decoded := depNames_decoded (d := d) words none
    refine ⟨decoded, fun α build sdk n hn present => ?_⟩
    obtain ⟨a, ha⟩ := Option.isSome_iff_exists.mp present
    rw [decoded, Option.getD_some, ha]
    exact copyDeps_file build (List.mem_map_of_mem hn) ha sdk

/-- Two names without `-l`. -/
theorem decodes_icu : DecodesFlags ⟨true⟩
    [⟨"icuuc".toList, by decide, by simp [isBlank]⟩, ⟨"gdal".toList, by decide, by simp [isBlank]⟩]
    "-licuuc -lgdal".toList :=
  (decodes_iff (by decide)).mpr (by simp; decide)

/-- The archive of `-lprotobuf-lite` is not visited. -/
theorem decodes_protobuf_lite :
    ∃ name : LibName, name.text = "protobuf-lite".toList ∧
      fields "-lprotobuf-lite".toList = [name].map (fun n => "-l".toList ++ n.text) ∧
      depNames ⟨true⟩ "-lprotobuf-lite".toList = some ["protobufite".toList] ∧
      ¬ DecodesFlags ⟨true⟩ [name] "-lprotobuf-lite".toList := by
  have visited : depNames ⟨true⟩ "-lprotobuf-lite".toList = some ["protobufite".toList] := by
    rw [depNames_eq]
    decide
  refine ⟨⟨"protobuf-lite".toList, by decide, by simp [isBlank]⟩, rfl, by decide, visited, ?_⟩
  rintro ⟨same, -⟩
  rw [visited] at same
  exact absurd same (by decide)

end MapnikPackaging.Sdk
