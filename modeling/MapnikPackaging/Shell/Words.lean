/-
Word splitting: what becomes of an unquoted expansion.

`fields` divides a text at blanks, tabs and newlines, which is what the shell does with the
default `IFS`. A part that ends up empty is not a word.

* `fields_of_word`, `mem_fields` — a word without such characters is one field, and a field is one.
* `fields_replaceAll` — replacing within words commutes with the division into words.
* `mem_fields_sortUniq` — `sort | uniq` keeps the words.
-/

import Mathlib.Data.Char
import Mathlib.Data.List.Lex
import Mathlib.Data.List.Sort
import MapnikPackaging.Sed.Substitute

namespace Shell

open Sed

/-- The characters of the default `IFS`. -/
def isBlank (c : Char) : Bool := c = ' ' || c = '\t' || c = '\n'

/-- The words of a text. -/
def fields (text : List Char) : List (List Char) :=
  (text.splitOnP isBlank).filter (· ≠ [])

theorem fields_of_word {w : List Char} (nonempty : w ≠ []) (plain : ∀ c ∈ w, isBlank c = false) :
    fields w = [w] := by
  rw [fields, List.splitOnP_eq_singleton plain]
  simp [nonempty]

theorem fields_append_blank {c : Char} (blank : isBlank c = true) (s t : List Char) :
    fields (s ++ c :: t) = fields s ++ fields t := by
  rw [fields, List.splitOnP_append_cons s t blank, List.filter_append]
  rfl

/-- A field is a part of the text without blanks. -/
theorem mem_fields {w text : List Char} (h : w ∈ fields text) :
    w ≠ [] ∧ ∀ c ∈ w, isBlank c = false ∧ c ∈ text := by
  have parts : ∀ {text w : List Char}, w ∈ text.splitOnP isBlank →
      ∀ c ∈ w, isBlank c = false ∧ c ∈ text := by
    intro text
    induction text with
    | nil =>
      intro w hw c hc
      rw [List.splitOnP_nil, List.mem_singleton] at hw
      simp [hw] at hc
    | cons d text ih =>
      intro w hw c hc
      rw [List.splitOnP_cons_eq_if_modifyHead] at hw
      cases blank : isBlank d with
      | true =>
        rw [blank, if_pos rfl] at hw
        rcases List.mem_cons.mp hw with rfl | hw
        · cases hc
        · exact ⟨(ih hw c hc).1, List.mem_cons_of_mem d (ih hw c hc).2⟩
      | false =>
        rw [blank, if_neg (by simp)] at hw
        cases split : text.splitOnP isBlank with
        | nil => simp [split] at hw
        | cons v vs =>
          rw [split, List.modifyHead_cons] at hw
          rcases List.mem_cons.mp hw with rfl | hw
          · rcases List.mem_cons.mp hc with rfl | hc
            · exact ⟨blank, List.mem_cons_self⟩
            · have := ih (by rw [split]; exact List.mem_cons_self) c hc
              exact ⟨this.1, List.mem_cons_of_mem d this.2⟩
          · have := ih (by rw [split]; exact List.mem_cons_of_mem v hw) c hc
            exact ⟨this.1, List.mem_cons_of_mem d this.2⟩
  rw [fields, List.mem_filter, decide_eq_true_eq] at h
  exact ⟨h.2, parts h.1⟩

/-- Words that are joined by blanks are found again. -/
theorem fields_intercalate {c : Char} (blank : isBlank c = true) {ws : List (List Char)}
    (words : ∀ w ∈ ws, w ≠ [] ∧ ∀ c ∈ w, isBlank c = false) : fields ([c].intercalate ws) = ws := by
  induction ws with
  | nil => rfl
  | cons w ws ih =>
    have word := fields_of_word (words w (by simp)).1 (words w (by simp)).2
    cases ws with
    | nil => simpa using word
    | cons v vs =>
      rw [List.intercalate_cons_cons, List.append_assoc, List.singleton_append,
        fields_append_blank blank, word, ih fun u hu => words u (by simp [hu])]
      rfl

/-- **Replacing within words** is replacing in each word; a word that becomes empty is gone. -/
theorem fields_replaceAll {p q : List Char} (hp : ∀ c ∈ p, isBlank c = false)
    (hq : ∀ c ∈ q, isBlank c = false) (nonempty : p ≠ []) (text : List Char) :
    fields (replaceAll p q text) = ((fields text).map (replaceAll p q)).filter (· ≠ []) := by
  have outside : ∀ c, isBlank c = true → c ∉ p := by
    intro c blank hc
    rw [hp c hc] at blank
    cases blank
  have parts := replaceAll_splitOnP outside hq nonempty text
  have empty : replaceAll p q [] = [] := rfl
  rw [fields, parts, fields, List.filter_map, List.filter_map, List.filter_filter]
  congr 1
  apply List.filter_congr
  intro w _
  by_cases none : w = []
  · simp [none, empty]
  · simp [none]

/-! ### Lines -/

/-- The lines of a text; the last one may want its newline. -/
def lines (text : List Char) : List (List Char) :=
  let parts := text.splitOn '\n'
  if parts.getLast? = some [] then parts.dropLast else parts

/-- Lines as they are printed. -/
def unlines (ls : List (List Char)) : List Char := ls.flatMap (· ++ ['\n'])

/-- A line that repeats the one before is left out. -/
def uniq : List (List Char) → List (List Char)
  | a :: b :: ls => if a = b then uniq (b :: ls) else a :: uniq (b :: ls)
  | ls => ls

/-- `sort | uniq` -/
def sortUniq (text : List Char) : List Char := unlines (uniq ((lines text).insertionSort (· ≤ ·)))

theorem mem_uniq {l : List Char} {ls : List (List Char)} : l ∈ uniq ls ↔ l ∈ ls := by
  fun_induction uniq ls with
  | case1 a ls ih => simp [ih]
  | case2 a b ls differ ih => simp [ih]
  | case3 ls => rfl

theorem fields_unlines (ls : List (List Char)) : fields (unlines ls) = ls.flatMap fields := by
  induction ls with
  | nil => rfl
  | cons l ls ih =>
    have newline : isBlank '\n' = true := rfl
    rw [unlines, List.flatMap_cons, List.append_assoc, List.singleton_append,
      fields_append_blank newline, ← unlines, ih, List.flatMap_cons]

theorem fields_lines (text : List Char) : (lines text).flatMap fields = fields text := by
  have newline : isBlank '\n' = true := rfl
  have joined : ∀ ps : List (List Char), fields (['\n'].intercalate ps) = ps.flatMap fields := by
    intro ps
    induction ps with
    | nil => rfl
    | cons p ps ih =>
      cases ps with
      | nil => simp
      | cons q qs =>
        rw [List.intercalate_cons_cons, List.append_assoc, List.singleton_append,
          fields_append_blank newline, ih]
        rfl
  have parts := joined (text.splitOn '\n')
  rw [List.intercalate_splitOn] at parts
  rw [parts, lines]
  split
  · next ended =>
    -- the part behind the last newline has no fields
    conv_rhs => rw [← List.dropLast_append_getLast? [] ended]
    rw [List.flatMap_append]
    simp [fields]
  · rfl

/-- **Sorting lines and leaving out doubles** keeps the words. -/
theorem mem_fields_sortUniq {w text : List Char} :
    w ∈ fields (sortUniq text) ↔ w ∈ fields text := by
  rw [sortUniq, fields_unlines, ← fields_lines text]
  simp only [List.mem_flatMap, mem_uniq, List.mem_insertionSort]

end Shell
