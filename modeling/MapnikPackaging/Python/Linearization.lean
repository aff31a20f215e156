/-
The linearization of base classes.

`merge` is the C3 merge by which Python orders the ancestors of a new class: it takes, again and
again, the first head that stands behind no other class, and fails when there is none.

* `not_both_orders`, `last_of_sublists` — order in a list without duplicates.
* `merge_sublist`, `merge_nodup`, `merge_mem` — the order of every list is kept, no class comes
  twice and none comes from elsewhere.
* `merge_base_last` — bases of which the last has only the root above it.
* `merge_single` — a single base.
-/

import Mathlib.Data.List.Nodup
import Mathlib.Data.List.Sublists

namespace Python

variable {α : Type}

/-! ### Order in a list without duplicates -/

/-- Two classes do not stand in both orders. -/
theorem not_both_orders {a b : α} {l : List α} (nodup : l.Nodup) (h : [a, b].Sublist l) :
    ¬ [b, a].Sublist l := by
  induction l with
  | nil => cases h
  | cons x l ih =>
    obtain ⟨fresh, nodup⟩ := List.nodup_cons.mp nodup
    intro h'
    cases h with
    | cons _ h =>
      cases h' with
      | cons _ h' => exact ih nodup h h'
      | cons_cons _ h' => exact fresh (h.subset (by simp))
    | cons_cons _ h =>
      cases h' with
      | cons _ h' => exact fresh (h'.subset (by simp))
      | cons_cons _ h' => exact fresh (h'.subset (by simp))

/-- A class that every list with it puts at the end is last. -/
theorem last_of_sublists {l : List α} {o : α} (nodup : l.Nodup) (nonempty : l ≠ [])
    (below : ∀ a ∈ l, ∃ s : List α, s.Sublist l ∧ a ∈ s ∧ s.getLast? = some o) :
    l.getLast nonempty = o := by
  obtain ⟨s, hs, mem, last⟩ := below _ (List.getLast_mem nonempty)
  obtain ⟨init, rfl⟩ := List.getLast?_eq_some_iff.mp last
  by_contra other
  have before : l.getLast nonempty ∈ init := by
    rcases List.mem_append.mp mem with mem | mem
    · exact mem
    · exact absurd (List.mem_singleton.mp mem) other
  have order : [l.getLast nonempty, o].Sublist l :=
    ((List.singleton_sublist.mpr before).append (List.Sublist.refl [o])).trans hs
  have root : o ∈ l.dropLast := by
    have split := List.dropLast_append_getLast nonempty
    have member : o ∈ l := hs.subset (by simp)
    rw [← split] at member
    rcases List.mem_append.mp member with member | member
    · exact member
    · exact absurd (List.mem_singleton.mp member).symm other
  have reversed := (List.singleton_sublist.mpr root).append
    (List.Sublist.refl [l.getLast nonempty])
  rw [List.dropLast_append_getLast] at reversed
  exact not_both_orders nodup order reversed

/-! ### The merge -/

variable [DecidableEq α]

/-- Remove a class that has been taken from the head of each list. -/
def dropHead (c : α) (s : List α) : List α := if s.head? = some c then s.tail else s

/-- The first head that is in no tail. -/
def nextHead (seqs : List (List α)) : Option α :=
  (seqs.filterMap List.head?).find? fun c => seqs.all fun s => c ∉ s.tail

/-- The merge, in at most so many steps. -/
def mergeUpTo : ℕ → List (List α) → Option (List α)
  | 0, seqs => if seqs.all List.isEmpty then some [] else none
  | n + 1, seqs =>
    if seqs.all List.isEmpty then some []
    else (nextHead seqs).bind fun c => (mergeUpTo n (seqs.map (dropHead c))).map (c :: ·)

/-- Every step takes a class from some list. -/
def merge (seqs : List (List α)) : Option (List α) := mergeUpTo seqs.flatten.length seqs

section Kept

variable {c : α} {seqs : List (List α)} {n : ℕ} {r : List α}

theorem nextHead_free (h : nextHead seqs = some c) : ∀ s ∈ seqs, c ∉ s.tail := by
  have free := List.find?_some h
  intro s hs
  simpa using List.all_eq_true.mp free s hs

/-- What is taken is in none of the remaining lists. -/
theorem not_mem_dropHead {s : List α} (free : c ∉ s.tail) : c ∉ dropHead c s := by
  unfold dropHead
  cases s with
  | nil => simp
  | cons d s =>
    by_cases same : d = c
    · simpa [same] using free
    · have behind : c ∉ s := free
      simp [same, behind, Ne.symm same]

theorem dropHead_subset (c : α) (s : List α) : dropHead c s ⊆ s := by
  unfold dropHead
  split
  · exact (List.tail_sublist s).subset
  · exact List.Subset.refl s

theorem sublist_cons_dropHead (c : α) (s : List α) {r : List α} (h : (dropHead c s).Sublist r) :
    s.Sublist (c :: r) := by
  unfold dropHead at h
  split at h
  · rename_i head
    obtain ⟨t, rfl⟩ := List.head?_eq_some_iff.mp head
    exact h.cons_cons c
  · exact h.cons c

/-- One step of the merge. -/
theorem mergeUpTo_cases (h : mergeUpTo n seqs = some r) :
    ((∀ s ∈ seqs, s = []) ∧ r = []) ∨
      ∃ m c t, n = m + 1 ∧ nextHead seqs = some c ∧
        mergeUpTo m (seqs.map (dropHead c)) = some t ∧ r = c :: t := by
  have empty : seqs.all List.isEmpty = true → ∀ s ∈ seqs, s = [] := fun all s hs =>
    List.isEmpty_iff.mp (List.all_eq_true.mp all s hs)
  cases n with
  | zero =>
    unfold mergeUpTo at h
    split at h
    · rename_i all
      exact .inl ⟨empty all, (Option.some.inj h).symm⟩
    · cases h
  | succ m =>
    unfold mergeUpTo at h
    split at h
    · rename_i all
      exact .inl ⟨empty all, (Option.some.inj h).symm⟩
    · obtain ⟨c, hc, h⟩ := Option.bind_eq_some_iff.mp h
      obtain ⟨t, ht, rfl⟩ := Option.map_eq_some_iff.mp h
      exact .inr ⟨m, c, t, rfl, hc, ht, rfl⟩

theorem mergeUpTo_sublist (h : mergeUpTo n seqs = some r) : ∀ s ∈ seqs, s.Sublist r := by
  induction n generalizing seqs r with
  | zero =>
    intro s hs
    rcases mergeUpTo_cases h with ⟨empty, -⟩ | ⟨m, c, t, hm, -⟩
    · rw [empty s hs]
      exact List.nil_sublist r
    · cases hm
  | succ n ih =>
    intro s hs
    rcases mergeUpTo_cases h with ⟨empty, -⟩ | ⟨m, c, t, hm, -, ht, rfl⟩
    · rw [empty s hs]
      exact List.nil_sublist r
    · obtain rfl := Nat.succ.inj hm
      exact sublist_cons_dropHead c s (ih ht _ (List.mem_map_of_mem hs))

theorem mergeUpTo_mem (h : mergeUpTo n seqs = some r) {a : α} (ha : a ∈ r) : ∃ s ∈ seqs, a ∈ s := by
  induction n generalizing seqs r with
  | zero =>
    rcases mergeUpTo_cases h with ⟨-, rfl⟩ | ⟨m, c, t, hm, -⟩
    · cases ha
    · cases hm
  | succ n ih =>
    rcases mergeUpTo_cases h with ⟨-, rfl⟩ | ⟨m, c, t, hm, hc, ht, rfl⟩
    · cases ha
    · obtain rfl := Nat.succ.inj hm
      rcases List.mem_cons.mp ha with rfl | ha
      · obtain ⟨s, hs, head⟩ := List.mem_filterMap.mp (List.mem_of_find?_eq_some hc)
        exact ⟨s, hs, List.mem_of_mem_head? head⟩
      · obtain ⟨s', hs', ha⟩ := ih ht ha
        obtain ⟨s, hs, rfl⟩ := List.mem_map.mp hs'
        exact ⟨s, hs, dropHead_subset c s ha⟩

theorem mergeUpTo_nodup (h : mergeUpTo n seqs = some r) : r.Nodup := by
  induction n generalizing seqs r with
  | zero =>
    rcases mergeUpTo_cases h with ⟨-, rfl⟩ | ⟨m, c, t, hm, -⟩
    · exact List.nodup_nil
    · cases hm
  | succ n ih =>
    rcases mergeUpTo_cases h with ⟨-, rfl⟩ | ⟨m, c, t, hm, hc, ht, rfl⟩
    · exact List.nodup_nil
    · obtain rfl := Nat.succ.inj hm
      refine List.nodup_cons.mpr ⟨fun again => ?_, ih ht⟩
      obtain ⟨s', hs', hmem⟩ := mergeUpTo_mem ht again
      obtain ⟨s, hs, rfl⟩ := List.mem_map.mp hs'
      exact not_mem_dropHead (nextHead_free hc s hs) hmem

/-- **The merge keeps the order of every list.** -/
theorem merge_sublist (h : merge seqs = some r) : ∀ s ∈ seqs, s.Sublist r := mergeUpTo_sublist h

theorem merge_nodup (h : merge seqs = some r) : r.Nodup := mergeUpTo_nodup h

theorem merge_mem (h : merge seqs = some r) {a : α} (ha : a ∈ r) : ∃ s ∈ seqs, a ∈ s :=
  mergeUpTo_mem h ha

end Kept

/-! ### A base with only the root above it -/

section BaseLast

variable {o i : α}

/-- The head of the first list is taken if it is free. -/
theorem mergeUpTo_first {c : α} {t : List α} {seqs : List (List α)} {n : ℕ}
    (free : c ∉ t ∧ ∀ s ∈ seqs, c ∉ s.tail) :
    mergeUpTo (n + 1) ((c :: t) :: seqs) =
      (mergeUpTo n (t :: seqs.map (dropHead c))).map (c :: ·) := by
  have all : (((c :: t) :: seqs).all fun s => c ∉ s.tail) = true := by
    refine List.all_eq_true.mpr fun s hs => decide_eq_true ?_
    rcases List.mem_cons.mp hs with rfl | hs
    · exact free.1
    · exact free.2 s hs
  have head : nextHead ((c :: t) :: seqs) = some c :=
    (List.find?_cons_of_pos all : (c :: seqs.filterMap List.head?).find? _ = some c)
  rw [mergeUpTo, if_neg (by simp), head, Option.bind_some, List.map_cons]
  congr 3
  simp [dropHead]

/-- The other base's ancestors come first, then the last base and the root. -/
theorem mergeUpTo_base_last {xs : List α} (distinct : (xs ++ [i, o]).Nodup) {n : ℕ}
    (steps : xs.length + 2 ≤ n) :
    mergeUpTo n [xs ++ [o], [i, o], [i]] = some (xs ++ [i, o]) := by
  induction xs generalizing n with
  | nil =>
    obtain ⟨m, rfl⟩ : ∃ m, n = m + 2 := ⟨n - 2, by simp at steps; omega⟩
    have ne : i ≠ o := by simpa using distinct
    -- the root is behind the last base, so that one is taken first
    have head : nextHead [[o], [i, o], [i]] = some i := by
      simp [nextHead, ne]
    have dropped : [[o], [i, o], [i]].map (dropHead i) = [[o], [o], []] := by
      simp [dropHead, Ne.symm ne]
    have root : mergeUpTo (m + 1) [[o], [o], []] = some [o] := by
      rw [mergeUpTo_first (by simp)]
      cases m <;> simp [mergeUpTo, dropHead]
    rw [List.nil_append, mergeUpTo, if_neg (by simp), head, Option.bind_some, dropped, root]
    rfl
  | cons x xs ih =>
    obtain ⟨m, rfl⟩ : ∃ m, n = m + 1 := ⟨n - 1, by simp at steps; omega⟩
    have parts : x ∉ xs ∧ x ≠ i ∧ x ≠ o := by
      have := (List.nodup_cons.mp distinct).1
      simpa [not_or] using this
    have rest := ih (List.nodup_cons.mp distinct).2 (n := m) (by simp at steps; omega)
    have kept : [[i, o], [i]].map (dropHead x) = [[i, o], [i]] := by
      simp [dropHead, Ne.symm parts.2.1]
    rw [List.cons_append, mergeUpTo_first (by simp [parts]), kept, rest]
    rfl

/-- **A class and a base with only the root above it** can always be listed together. -/
theorem merge_base_last {b : α} {xs : List α} (distinct : (b :: xs ++ [i, o]).Nodup) :
    merge [b :: xs ++ [o], [i, o], [b, i]] = some (b :: xs ++ [i, o]) := by
  have parts : b ∉ xs ∧ b ≠ i ∧ b ≠ o := by
    have := (List.nodup_cons.mp distinct).1
    simpa [not_or] using this
  have rest := mergeUpTo_base_last (List.nodup_cons.mp distinct).2 (n := xs.length + 5) (by omega)
  have total : ([b :: xs ++ [o], [i, o], [b, i]] : List (List α)).flatten.length
      = xs.length + 5 + 1 := by
    simp
  have dropped : [[i, o], [b, i]].map (dropHead b) = [[i, o], [i]] := by
    simp [dropHead, Ne.symm parts.2.1]
  rw [merge, total, List.cons_append, mergeUpTo_first (by simp [parts]), dropped, rest]
  rfl

end BaseLast

/-! ### A single base -/

theorem mergeUpTo_alone {t : List α} (nodup : t.Nodup) {n : ℕ} (steps : t.length ≤ n) :
    mergeUpTo n [t, []] = some t := by
  induction t generalizing n with
  | nil => cases n <;> simp [mergeUpTo]
  | cons a t ih =>
    obtain ⟨m, rfl⟩ : ∃ m, n = m + 1 := ⟨n - 1, by simp at steps; omega⟩
    obtain ⟨fresh, nodup⟩ := List.nodup_cons.mp nodup
    have dropped : [([] : List α)].map (dropHead a) = [[]] := rfl
    rw [mergeUpTo_first (by simp [fresh]), dropped, ih nodup (by simp at steps; omega)]
    rfl

theorem merge_single {b : α} {t : List α} (nodup : (b :: t).Nodup) :
    merge [b :: t, [b]] = some (b :: t) := by
  obtain ⟨fresh, nodup⟩ := List.nodup_cons.mp nodup
  have total : ([b :: t, [b]] : List (List α)).flatten.length = t.length + 1 + 1 := by
    simp
  have dropped : [[b]].map (dropHead b) = [[]] := by
    simp [dropHead]
  rw [merge, total, mergeUpTo_first (by simp [fresh]), dropped, mergeUpTo_alone nodup (by omega)]
  rfl

end Python
