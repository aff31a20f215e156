/-
The function `contains` of `build.sh`.

It removes the shortest prefix that ends with the substring and compares what is left with the
whole text. Neither `$1` in the removal nor `$2` on the right of `==` is quoted, so both are
patterns, the second one with the extended forms; `settings.sh` and `build_boost.sh` quote both in
the same idiom.

* `decides_iff` — for a substring without operators and a text in which only `*` and `?` are
  operators, the answer is right exactly when the substring is not empty.
* `decides_text_iff` — for a text without operators, which substrings get the right answer.
-/

import MapnikPackaging.Shell.Extended

namespace MapnikPackaging

open Shell

/-- The exit status of `contains sub full`. -/
def contains (sub full : List Char) : ℕ :=
  if (extended full).matches (removeShortest (pattern ('*' :: sub)) full) then 1 else 0

/-- `"${X#*'sub'}" != "$X"`. -/
def quotedIdiom (sub full : List Char) : Bool := removeShortest (.star :: quoted sub) full ≠ full

/-- The status says whether `sub` occurs in `full`, and agrees with the quoted idiom for every
substring but the empty one. -/
def Decides (sub full : List Char) : Prop :=
  (contains sub full = 0 ↔ sub <:+: full) ∧
    (sub ≠ [] → (contains sub full = 0 ↔ quotedIdiom sub full = true))

section

variable {sub full : List Char}

theorem quotedIdiom_iff (nonempty : sub ≠ []) : quotedIdiom sub full = true ↔ sub <:+: full := by
  unfold quotedIdiom
  rw [decide_eq_true_eq]
  exact removeShortest_quoted nonempty full

/-- The two halves say the same of a substring that is not empty. -/
theorem decides_of_answer (answer : contains sub full = 0 ↔ sub <:+: full) : Decides sub full :=
  ⟨answer, fun nonempty => answer.trans (quotedIdiom_iff nonempty).symm⟩

theorem contains_eq_zero : contains sub full = 0 ↔
    ¬ (extended full).matches (removeShortest (.star :: patternBehind sub) full) = true := by
  rw [contains, pattern_star]
  split
  · rename_i matched
    simp [matched]
  · rename_i unmatched
    simp [unmatched]

/-- A flat text does not match what is left of it when a part is taken away that has a character
of its own: the pattern asks for more of these. -/
theorem unmatched_of_flat {u r : List Char} {c : Char} (flat : Flat full) (split : u ++ r = full)
    (star : c ≠ '*') (any : c ≠ '?') (gone : c ∈ u) : ¬ (extended full).matches r = true := by
  rw [matches_of_flat flat]
  intro matched
  have asked := count_le_of_globMatch matched c
  rw [count_map_pieceOf star any, ← split, List.count_append] at asked
  have taken : 0 < u.count c := List.count_pos_iff.mpr gone
  omega

/-- A flat text matches itself. -/
theorem matches_self_of_flat (flat : Flat full) : (extended full).matches full = true := by
  rw [matches_of_flat flat]
  exact globMatch_self full

/-- **`contains` is right** exactly for the substrings that are not empty, if no character of the
substring is an operator and the text is flat. -/
theorem decides_iff (plain : Plain sub) (flat : Flat full) : Decides sub full ↔ sub ≠ [] := by
  constructor
  · rintro ⟨answer, -⟩ rfl
    -- the empty prefix is removed, and the text matches itself
    have whole : removeShortest (.star :: patternBehind []) full = full :=
      not_not.mp fun less => ((removeShortest_star _ full).mp less).1 rfl
    apply contains_eq_zero.mp (answer.mpr List.nil_infix)
    rw [whole]
    exact matches_self_of_flat flat
  · intro nonempty
    apply decides_of_answer
    rw [contains_eq_zero, patternBehind, pieces_of_plain plain, ← removeShortest_quoted nonempty]
    by_cases whole : removeShortest (.star :: quoted sub) full = full
    · rw [whole]
      exact iff_of_false (not_not.mpr (matches_self_of_flat flat)) (not_not.mpr rfl)
    · refine iff_of_true ?_ whole
      rcases leaves_removeShortest (.star :: quoted sub) full with
        ⟨u, split, matched, -⟩ | ⟨same, -⟩
      · -- what is removed ends with the substring, and so has its first character
        obtain ⟨t, suffix, part⟩ := (globMatch_star _ _).mp matched
        rw [globMatch_lits] at part
        obtain ⟨c, rest, rfl⟩ := List.exists_cons_of_ne_nil nonempty
        have ordinary := plain c List.mem_cons_self
        simp only [wild, List.mem_cons, List.not_mem_nil, or_false, not_or] at ordinary
        apply unmatched_of_flat flat split ordinary.1 ordinary.2.1
        exact suffix.subset (part ▸ List.mem_cons_self)
      · exact absurd same whole

/-- **For a text without operators** the answer is right exactly when the substring, as a pattern
behind a star, matches a part of the text and not the empty one just in case it occurs itself. -/
theorem decides_text_iff (plain : Plain full) (flat : Flat full) : Decides sub full ↔
    ((¬ globMatch (patternBehind sub) [] = true ∧
      ∃ t, t <:+: full ∧ globMatch (patternBehind sub) t = true) ↔ sub <:+: full) := by
  have itself : ∀ r, (extended full).matches r = true ↔ r = full := by
    intro r
    have lits : full.map pieceOf = quoted full := by
      apply List.map_congr_left
      intro c hc
      have ordinary := plain c hc
      simp only [wild, List.mem_cons, List.not_mem_nil, or_false, not_or] at ordinary
      rw [pieceOf, if_neg ordinary.1, if_neg ordinary.2.1]
    rw [matches_of_flat flat, lits, globMatch_lits]
  have less : contains sub full = 0 ↔ removeShortest (.star :: patternBehind sub) full ≠ full :=
    contains_eq_zero.trans (not_congr (itself _))
  rw [← removeShortest_star, ← less]
  exact ⟨fun right => right.1, decides_of_answer⟩

end

/-- A path with stars and question marks in it, in which the substring occurs. -/
theorem decides_clang : Decides "clang".toList "/opt/*/clang-?/bin".toList :=
  (decides_iff (by decide) (by decide)).mpr (by decide)

/-- A path with a bracket in it does not match itself, and `contains` finds everything there. -/
theorem contains_bracket :
    contains "g++".toList "/opt/[a]/clang".toList = 0 ∧
      ¬ "g++".toList <:+: "/opt/[a]/clang".toList ∧
      ¬ Decides "g++".toList "/opt/[a]/clang".toList := by
  have found : contains "g++".toList "/opt/[a]/clang".toList = 0 := by decide
  have absent : ¬ "g++".toList <:+: "/opt/[a]/clang".toList := by decide
  exact ⟨found, absent, fun right => absent (right.1.mp found)⟩

/-- So does a path with a group in it. -/
example : contains "clang".toList "/tmp/g++(1)/bin".toList = 0 := by decide

end MapnikPackaging
