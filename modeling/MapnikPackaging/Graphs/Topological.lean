/-
Orders of a directed graph.

`Before l a b` says that `a` stands before `b`. A graph with cycles has no list with all edges the
right way round, so `Finished` asks less of a depth-first search: what an edge leads to was listed
earlier, unless it leads back. An acyclic graph is also ordered by taking away vertices that nothing
leads to, and there is one as long as there is any vertex.

* `order_unique` — where paths connect any two vertices, there is only one order.
* `Finished.append`, `Finished.concat` — one search after another, a vertex after its neighbours.
* `exists_source` — an acyclic graph has a vertex that nothing leads to.
* `cycle_avoids` — taking it away breaks no cycle.
-/

import Mathlib.Data.Set.Finite.Basic
import Mathlib.Data.List.Basic
import Mathlib.Data.List.Perm.Basic
import Mathlib.Logic.Relation
import Mathlib.Order.WellFounded

namespace Graphs

open Relation

variable {V W : Type*} {edge edge' : V → V → Prop} {l m new : List V} {a b c v : V}

/-! ### Positions -/

/-- `a` stands before `b` in the list. -/
def Before (l : List V) (a b : V) : Prop := [a, b].Sublist l

theorem Before.mem_left (h : Before l a b) : a ∈ l := h.subset (by simp)

theorem Before.mem_right (h : Before l a b) : b ∈ l := h.subset (by simp)

theorem Before.append (h : Before l a b) (m : List V) : Before (l ++ m) a b :=
  h.trans (List.sublist_append_left l m)

theorem Before.cons (h : Before l a b) (c : V) : Before (c :: l) a b := List.Sublist.cons c h

theorem before_concat (h : a ∈ l) (b : V) : Before (l ++ [b]) a b :=
  (List.singleton_sublist.mpr h).append (List.Sublist.refl [b])

theorem before_cons (a : V) (h : b ∈ l) : Before (a :: l) a b :=
  (List.singleton_sublist.mpr h).cons_cons a

/-- Read backwards, the later stands before the earlier. -/
theorem Before.reverse (h : Before l a b) : Before l.reverse b a := List.Sublist.reverse h

theorem Before.map (f : V → W) (h : Before l a b) : Before (l.map f) (f a) (f b) :=
  List.Sublist.map f h

/-- Only one of two stands before the other. -/
theorem Before.asymm (nodup : l.Nodup) (h : Before l a b) : ¬ Before l b a := by
  intro back
  induction l with
  | nil => cases h
  | cons x l ih =>
    obtain ⟨apart, nodup⟩ := List.nodup_cons.mp nodup
    cases h with
    | cons _ h =>
      cases back with
      | cons _ back => exact ih nodup h back
      | cons_cons _ _ => exact apart (Before.mem_right h)
    | cons_cons _ hb =>
      have there : b ∈ l := List.singleton_sublist.mp hb
      cases back with
      | cons _ back => exact apart (Before.mem_right back)
      | cons_cons _ _ => exact apart there

theorem Before.trans (nodup : l.Nodup) (h : Before l a b) (h' : Before l b c) : Before l a c := by
  induction l with
  | nil => cases h
  | cons x l ih =>
    obtain ⟨apart, nodup⟩ := List.nodup_cons.mp nodup
    cases h with
    | cons _ h =>
      cases h' with
      | cons _ h' => exact (ih nodup h h').cons x
      | cons_cons _ _ => exact absurd (Before.mem_right h) apart
    | cons_cons _ hb =>
      cases h' with
      | cons _ h' => exact before_cons a (Before.mem_right h')
      | cons_cons _ _ => exact absurd (List.singleton_sublist.mp hb) apart

/-- What stands before along each edge stands before along each path. -/
theorem before_of_path (nodup : l.Nodup) (edges : ∀ a b, edge a b → Before l a b)
    (path : TransGen edge a b) : Before l a b := by
  induction path with
  | single h => exact edges _ _ h
  | tail _ h ih => exact ih.trans nodup (edges _ _ h)

/-- **Only one order** has all edges the right way round, where paths connect any two vertices. -/
theorem order_unique (nodup : l.Nodup) (perm : m.Perm l) (edges : ∀ a b, edge a b → Before l a b)
    (edges' : ∀ a b, edge a b → Before m a b)
    (total : ∀ a ∈ l, ∀ b ∈ l, a ≠ b → TransGen edge a b ∨ TransGen edge b a) : m = l := by
  have paths : ∀ {r : List V}, r.Perm l → r.Nodup → (∀ a b, edge a b → Before r a b) →
      r.Pairwise (TransGen edge) := by
    intro r same nodup edges
    rw [List.pairwise_iff_forall_sublist]
    intro a b h
    have before : Before r a b := h
    have differ : a ≠ b := by
      rintro rfl
      exact before.asymm nodup before
    rcases total a (same.subset before.mem_left) b (same.subset before.mem_right) differ with h | h
    · exact h
    · exact absurd (before_of_path nodup edges h) (before.asymm nodup)
  refine perm.eq_of_pairwise ?_ (paths perm (perm.nodup_iff.mpr nodup) edges')
    (paths (List.Perm.refl l) nodup edges)
  intro a b _ _ there back
  exact absurd (before_of_path nodup edges back)
    ((before_of_path nodup edges there).asymm nodup)

/-! ### Depth first -/

/-- What an edge from a vertex of `new` leads to stands before it, or leads back. -/
def Finished (edge : V → V → Prop) (l new : List V) : Prop :=
  ∀ a ∈ new, ∀ b, edge a b → Before (l ++ new) b a ∨ ReflTransGen edge b a

theorem finished_nil (l : List V) : Finished edge l [] := by
  intro a ha
  cases ha

/-- One search after another. -/
theorem Finished.append (first : Finished edge l new) (second : Finished edge (l ++ new) m) :
    Finished edge l (new ++ m) := by
  intro a ha b hab
  rw [← List.append_assoc]
  rcases List.mem_append.mp ha with ha | ha
  · exact (first a ha b hab).imp_left fun before => before.append m
  · exact second a ha b hab

/-- A vertex after what it leads to. -/
theorem Finished.concat (search : Finished edge l new)
    (neighbours : ∀ b, edge v b → b ∈ l ++ new ∨ ReflTransGen edge b v) :
    Finished edge l (new ++ [v]) := by
  apply search.append
  intro a ha b hab
  obtain rfl := List.mem_singleton.mp ha
  exact (neighbours b hab).imp_left fun there => before_concat there a

/-! ### Acyclic graphs -/

def Acyclic (edge : V → V → Prop) : Prop := ∀ a, ¬ TransGen edge a a

/-- **A graph with an edge to each of its vertices has a cycle.** -/
theorem exists_source (acyclic : Acyclic edge) (nonempty : l ≠ []) :
    ∃ b ∈ l, ∀ a ∈ l, ¬ edge a b := by
  let path : {x // x ∈ l} → {x // x ∈ l} → Prop := fun x y => TransGen edge x.1 y.1
  have : Finite {x // x ∈ l} := (List.finite_toSet l).to_subtype
  have : IsTrans {x // x ∈ l} path := ⟨fun _ _ _ => TransGen.trans⟩
  have : Std.Irrefl path := ⟨fun x => acyclic x.1⟩
  have well : WellFounded path := Finite.wellFounded_of_trans_of_irrefl path
  obtain ⟨x, hx⟩ := List.exists_mem_of_ne_nil l nonempty
  obtain ⟨y, -, least⟩ := well.has_min Set.univ ⟨⟨x, hx⟩, trivial⟩
  exact ⟨y.1, y.2, fun a ha edge => least ⟨a, ha⟩ trivial (.single edge)⟩

/-- The first vertex of a path that something leads to is not `v`, if nothing leads to `v`. -/
theorem path_avoids (source : ∀ a, ¬ edge a v) (path : TransGen edge a b) (start : a ≠ v) :
    TransGen (fun x y => edge x y ∧ x ≠ v) a b := by
  induction path using TransGen.head_induction_on with
  | single h => exact .single ⟨h, start⟩
  | head h _ ih => exact .head ⟨h, start⟩ (ih fun same => source _ (same ▸ h))

/-- **A cycle avoids what nothing leads to.** -/
theorem cycle_avoids (source : ∀ a, ¬ edge a v) (cycle : TransGen edge a a) :
    TransGen (fun x y => edge x y ∧ x ≠ v) a a := by
  apply path_avoids source cycle
  rintro rfl
  obtain ⟨b, -, h⟩ := TransGen.tail'_iff.mp cycle
  exact source b h

end Graphs
