/-
Classes of a Python program: attribute tables, lookup and the creation of a class.

`Heap` holds the classes that exist with their metaclasses and method resolution orders, and
carries the rules these obey, so that a heap that no program can build cannot be written down.
`getattr` looks through the ancestors of a class and then through those of its metaclass;
`typeNew` is `type.__new__`, which may refuse the bases.

* `setattr_own` and `getattr_congr` — what a write changes, and what a lookup depends on.
* `typeNew_cases` — what a new class is and that nothing else changes.
* `typeNew_ordered` — no base is an ancestor of a later one.
* `typeNew_root` — a class and one right below the root can be bases together.
* `typeNew_single` — what comes of a single base.
-/

import MapnikPackaging.Python.Linearization
import Mathlib.Logic.Function.Basic

namespace Python

/-- Classes are numbered in the order of their creation. -/
abbrev ClassId := ℕ

/-- `type`. -/
def pyType : ClassId := 0

/-- `object`. -/
def pyObject : ClassId := 1

/-- The classes that exist: those numbered below `next`. -/
structure Heap (N V : Type) where
  next : ClassId
  type : ClassId → ClassId
  mro : ClassId → List ClassId
  own : ClassId → N → Option V
  type_bound : ∀ c < next, type c < next
  bound : ∀ c < next, ∀ a ∈ mro c, a < next
  head : ∀ c < next, (mro c).head? = some c
  root : ∀ c < next, (mro c).getLast? = some pyObject
  nodup : ∀ c < next, (mro c).Nodup
  /-- the ancestors of an ancestor are ancestors -/
  closed : ∀ c < next, ∀ a ∈ mro c, mro a ⊆ mro c
  /-- a class has a metaclass that derives from those of its ancestors -/
  mono : ∀ c < next, ∀ a ∈ mro c, type a ∈ mro (type c)
  type_object : type pyObject = pyType

namespace Heap

variable {N V : Type}

/-! ### Attributes -/

/-- The tables a lookup on a class goes through: its ancestors', then its metaclass's. -/
def path (h : Heap N V) (c : ClassId) : List ClassId := h.mro c ++ h.mro (h.type c)

/-- `getattr(c, k)`; it fails where `hasattr(c, k)` is false. -/
def getattr (h : Heap N V) (c : ClassId) (k : N) : Option V :=
  (h.path c).findSome? fun a => h.own a k

/-- `setattr(c, k, v)`. -/
def setattr [DecidableEq N] (h : Heap N V) (c : ClassId) (k : N) (v : V) : Heap N V :=
  { h with own := Function.update h.own c (Function.update (h.own c) k (some v)) }

section Attributes

variable {h h' : Heap N V} {c : ClassId} {k : N} {v : V}

section Write

variable [DecidableEq N]

@[simp] theorem setattr_next : (h.setattr c k v).next = h.next := rfl

@[simp] theorem setattr_type : (h.setattr c k v).type = h.type := rfl

@[simp] theorem setattr_mro : (h.setattr c k v).mro = h.mro := rfl

@[simp] theorem setattr_path (a : ClassId) : (h.setattr c k v).path a = h.path a := rfl

theorem setattr_own (a : ClassId) (j : N) :
    (h.setattr c k v).own a j = if a = c ∧ j = k then some v else h.own a j := by
  unfold setattr
  by_cases same : a = c
  · subst same
    by_cases name : j = k <;> simp [name]
  · simp [same]

end Write

/-- A lookup depends on the tables on its path. -/
theorem getattr_congr (classes : h'.path c = h.path c)
    (tables : ∀ a ∈ h.path c, h'.own a k = h.own a k) : h'.getattr c k = h.getattr c k := by
  have along : ∀ as : List ClassId, (∀ a ∈ as, h'.own a k = h.own a k) →
      (as.findSome? fun a => h'.own a k) = as.findSome? fun a => h.own a k := by
    intro as
    induction as with
    | nil => exact fun _ => rfl
    | cons a as ih =>
      intro same
      rw [List.findSome?_cons, List.findSome?_cons, same a (by simp),
        ih fun b hb => same b (by simp [hb])]
  rw [getattr, getattr, classes]
  exact along _ tables

theorem mro_eq (hc : c < h.next) : ∃ t, h.mro c = c :: t :=
  List.head?_eq_some_iff.mp (h.head c hc)

theorem mem_mro (hc : c < h.next) : c ∈ h.mro c := by
  obtain ⟨t, ht⟩ := h.mro_eq hc
  rw [ht]
  exact List.mem_cons_self

/-- A class's own attribute is found first. -/
theorem getattr_of_own (hc : c < h.next) (own : h.own c k = some v) : h.getattr c k = some v := by
  obtain ⟨t, ht⟩ := h.mro_eq hc
  simp [getattr, path, ht, own]

/-- The root has no other ancestor. -/
theorem mro_object (hc : pyObject < h.next) : h.mro pyObject = [pyObject] := by
  obtain ⟨t, ht⟩ := h.mro_eq hc
  have last := h.root _ hc
  have nodup := h.nodup _ hc
  rw [ht] at last nodup ⊢
  cases t with
  | nil => rfl
  | cons a t =>
    rw [List.getLast?_cons_cons] at last
    exact absurd (List.mem_of_getLast? last) (List.nodup_cons.mp nodup).1

/-- Every metaclass derives from `type`. -/
theorem pyType_mem (hc : c < h.next) : pyType ∈ h.mro (h.type c) := by
  have root : pyObject ∈ h.mro c := List.mem_of_getLast? (h.root c hc)
  exact h.type_object ▸ h.mono c hc _ root

end Attributes

/-! ### New classes -/

/-- What makes a metaclass and a linearization fit for a new class. -/
structure Fits (h : Heap N V) (metaclass : ClassId) (lin : List ClassId) : Prop where
  metaclass_bound : metaclass < h.next
  bound : ∀ a ∈ lin, a < h.next
  nodup : lin.Nodup
  root : lin.getLast? = some pyObject
  closed : ∀ a ∈ lin, h.mro a ⊆ lin
  mono : ∀ a ∈ lin, h.type a ∈ h.mro metaclass

/-- Add a class. -/
def alloc (h : Heap N V) (metaclass : ClassId) (lin : List ClassId) (attrs : N → Option V)
    (fits : h.Fits metaclass lin) : Heap N V where
  next := h.next + 1
  type := Function.update h.type h.next metaclass
  mro := Function.update h.mro h.next (h.next :: lin)
  own := Function.update h.own h.next attrs
  type_bound c hc := by
    rcases Nat.lt_succ_iff_lt_or_eq.mp hc with old | rfl
    · rw [Function.update_of_ne (Nat.ne_of_lt old)]
      exact Nat.lt_succ_of_lt (h.type_bound c old)
    · rw [Function.update_self]
      exact Nat.lt_succ_of_lt fits.metaclass_bound
  bound c hc a ha := by
    rcases Nat.lt_succ_iff_lt_or_eq.mp hc with old | rfl
    · rw [Function.update_of_ne (Nat.ne_of_lt old)] at ha
      exact Nat.lt_succ_of_lt (h.bound c old a ha)
    · rw [Function.update_self] at ha
      rcases List.mem_cons.mp ha with rfl | ha
      · exact Nat.lt_succ_self _
      · exact Nat.lt_succ_of_lt (fits.bound a ha)
  head c hc := by
    rcases Nat.lt_succ_iff_lt_or_eq.mp hc with old | rfl
    · rw [Function.update_of_ne (Nat.ne_of_lt old)]
      exact h.head c old
    · rw [Function.update_self]
      rfl
  root c hc := by
    rcases Nat.lt_succ_iff_lt_or_eq.mp hc with old | rfl
    · rw [Function.update_of_ne (Nat.ne_of_lt old)]
      exact h.root c old
    · rw [Function.update_self, List.getLast?_cons, fits.root]
      rfl
  nodup c hc := by
    rcases Nat.lt_succ_iff_lt_or_eq.mp hc with old | rfl
    · rw [Function.update_of_ne (Nat.ne_of_lt old)]
      exact h.nodup c old
    · rw [Function.update_self]
      exact List.nodup_cons.mpr ⟨fun new => Nat.lt_irrefl _ (fits.bound _ new), fits.nodup⟩
  closed c hc a ha := by
    rcases Nat.lt_succ_iff_lt_or_eq.mp hc with old | rfl
    · rw [Function.update_of_ne (Nat.ne_of_lt old)] at ha ⊢
      rw [Function.update_of_ne (Nat.ne_of_lt (h.bound c old a ha))]
      exact h.closed c old a ha
    · rw [Function.update_self] at ha ⊢
      rcases List.mem_cons.mp ha with rfl | ha
      · rw [Function.update_self]
        exact List.Subset.refl _
      · rw [Function.update_of_ne (Nat.ne_of_lt (fits.bound a ha))]
        exact List.subset_cons_of_subset _ (fits.closed a ha)
  mono c hc a ha := by
    rcases Nat.lt_succ_iff_lt_or_eq.mp hc with old | rfl
    · rw [Function.update_of_ne (Nat.ne_of_lt old)] at ha
      rw [Function.update_of_ne (Nat.ne_of_lt old),
        Function.update_of_ne (Nat.ne_of_lt (h.bound c old a ha)),
        Function.update_of_ne (Nat.ne_of_lt (h.type_bound c old))]
      exact h.mono c old a ha
    · rw [Function.update_self] at ha
      rw [Function.update_self, Function.update_of_ne (Nat.ne_of_lt fits.metaclass_bound)]
      rcases List.mem_cons.mp ha with rfl | ha
      · rw [Function.update_self]
        exact h.mem_mro fits.metaclass_bound
      · rw [Function.update_of_ne (Nat.ne_of_lt (fits.bound a ha))]
        exact fits.mono a ha
  type_object := by
    have root : pyObject < h.next := fits.bound _ (List.mem_of_getLast? fits.root)
    rw [Function.update_of_ne (Nat.ne_of_lt root)]
    exact h.type_object

/-- The most derived of the metaclasses of the bases, beginning with `metatype`. -/
def winner (h : Heap N V) : ClassId → List ClassId → Option ClassId
  | metatype, [] => some metatype
  | metatype, b :: bs =>
    if h.type b ∈ h.mro metatype then h.winner metatype bs
    else if metatype ∈ h.mro (h.type b) then h.winner (h.type b) bs
    else none

/-- The linearization of the bases. -/
def linearize (h : Heap N V) (bases : List ClassId) : Option (List ClassId) :=
  merge (bases.map h.mro ++ [bases])

section Fits

variable {h : Heap N V} {bases : List ClassId} {metatype metaclass : ClassId} {lin : List ClassId}

theorem winner_spec (exist : ∀ b ∈ bases, b < h.next) (hm : metatype < h.next)
    (won : h.winner metatype bases = some metaclass) :
    metaclass < h.next ∧ metatype ∈ h.mro metaclass ∧ ∀ b ∈ bases, h.type b ∈ h.mro metaclass := by
  induction bases generalizing metatype with
  | nil =>
    cases won
    exact ⟨hm, h.mem_mro hm, by simp⟩
  | cons b bs ih =>
    have rest : ∀ c ∈ bs, c < h.next := fun c hc => exist c (by simp [hc])
    unfold winner at won
    split at won
    · rename_i derived
      obtain ⟨bound, above, all⟩ := ih rest hm won
      refine ⟨bound, above, fun c hc => ?_⟩
      rcases List.mem_cons.mp hc with rfl | hc
      · exact h.closed _ bound _ above derived
      · exact all c hc
    · split at won
      · rename_i derives
        obtain ⟨bound, above, all⟩ := ih rest (h.type_bound b (exist b (by simp))) won
        refine ⟨bound, h.closed _ bound _ above derives, fun c hc => ?_⟩
        rcases List.mem_cons.mp hc with rfl | hc
        · exact above
        · exact all c hc
      · cases won

/-- Every class of a linearization is an ancestor of a base. -/
theorem linearize_mem (exist : ∀ b ∈ bases, b < h.next) (hlin : h.linearize bases = some lin)
    {a : ClassId} (ha : a ∈ lin) : ∃ b ∈ bases, a ∈ h.mro b := by
  obtain ⟨s, hs, has⟩ := merge_mem hlin ha
  rcases List.mem_append.mp hs with hs | hs
  · obtain ⟨b, hb, rfl⟩ := List.mem_map.mp hs
    exact ⟨b, hb, has⟩
  · obtain rfl := List.mem_singleton.mp hs
    exact ⟨a, has, h.mem_mro (exist a has)⟩

theorem linearize_sublist (hlin : h.linearize bases = some lin) {b : ClassId} (hb : b ∈ bases) :
    (h.mro b).Sublist lin :=
  merge_sublist hlin _ (List.mem_append_left _ (List.mem_map_of_mem hb))

theorem fits_of_linearize (exist : ∀ b ∈ bases, b < h.next) (nonempty : bases ≠ [])
    (hm : metatype < h.next) (won : h.winner metatype bases = some metaclass)
    (hlin : h.linearize bases = some lin) : h.Fits metaclass lin := by
  obtain ⟨bound, -, derives⟩ := winner_spec exist hm won
  refine ⟨bound, fun a ha => ?_, merge_nodup hlin, ?_, fun a ha => ?_, fun a ha => ?_⟩
  · obtain ⟨b, hb, hab⟩ := linearize_mem exist hlin ha
    exact h.bound b (exist b hb) a hab
  · obtain ⟨b, hb⟩ := List.exists_mem_of_ne_nil _ nonempty
    have some : lin ≠ [] := fun none => by
      have head := (linearize_sublist hlin hb).subset (h.mem_mro (exist b hb))
      rw [none] at head
      cases head
    refine List.getLast?_eq_some_getLast some ▸ congrArg _ ?_
    apply last_of_sublists (merge_nodup hlin) some
    intro a ha
    obtain ⟨b, hb, hab⟩ := linearize_mem exist hlin ha
    exact ⟨h.mro b, linearize_sublist hlin hb, hab, h.root b (exist b hb)⟩
  · obtain ⟨b, hb, hab⟩ := linearize_mem exist hlin ha
    exact List.Subset.trans (h.closed b (exist b hb) a hab) (linearize_sublist hlin hb).subset
  · obtain ⟨b, hb, hab⟩ := linearize_mem exist hlin ha
    exact h.closed _ bound _ (derives b hb) (h.mono b (exist b hb) a hab)

end Fits

/-- `type.__new__(metatype, name, bases, attrs)`: the new class, if the bases go together. -/
def typeNew (h : Heap N V) (metatype : ClassId) (bases : List ClassId) (attrs : N → Option V) :
    Option (Heap N V × ClassId) :=
  if ready : metatype < h.next ∧ bases ≠ [] ∧ ∀ b ∈ bases, b < h.next then
    match won : h.winner metatype bases, order : h.linearize bases with
    | some metaclass, some lin =>
      some (h.alloc metaclass lin attrs (fits_of_linearize ready.2.2 ready.2.1 ready.1 won order),
        h.next)
    | _, _ => none
  else none

/-- A class that has just been created: the others are as they were. -/
structure Created (h : Heap N V) (bases : List ClassId) (attrs : N → Option V) (h' : Heap N V)
    (cls : ClassId) : Prop where
  cls_eq : cls = h.next
  next : h'.next = h.next + 1
  exist : ∀ b ∈ bases, b < h.next
  type : ∀ c < h.next, h'.type c = h.type c
  mro : ∀ c < h.next, h'.mro c = h.mro c
  own : ∀ c < h.next, h'.own c = h.own c
  own_cls : h'.own cls = attrs
  /-- its metaclass derives from those of the bases -/
  derives : ∀ b ∈ bases, h.type b ∈ h'.mro (h'.type cls)
  nodup : bases.Nodup
  /-- no base is an ancestor of a later one -/
  ordered : bases.Pairwise fun b' b => b' ∉ h.mro b

section Creation

variable {h h' : Heap N V} {metatype cls : ClassId} {bases : List ClassId} {attrs : N → Option V}

theorem typeNew_ordered {lin : List ClassId} (exist : ∀ b ∈ bases, b < h.next)
    (order : h.linearize bases = some lin) :
    bases.Nodup ∧ bases.Pairwise fun b' b => b' ∉ h.mro b := by
  have listed : bases.Sublist lin := merge_sublist order _ (by simp)
  have nodup : bases.Nodup := (merge_nodup order).sublist listed
  refine ⟨nodup, List.pairwise_iff_forall_sublist.mpr fun {b' b} pair ancestor => ?_⟩
  have hb : b ∈ bases := pair.subset (by simp)
  obtain ⟨t, ht⟩ := h.mro_eq (exist b hb)
  have behind : b' ∈ t := by
    rw [ht] at ancestor
    rcases List.mem_cons.mp ancestor with same | behind
    · subst same
      exact absurd (pair.nodup nodup) (by simp)
    · exact behind
  have reversed : [b, b'].Sublist (h.mro b) := by
    rw [ht]
    exact (List.singleton_sublist.mpr behind).cons_cons b
  exact not_both_orders (merge_nodup order) (pair.trans listed)
    (reversed.trans (linearize_sublist order hb))

/-- **What `type.__new__` does.** -/
theorem typeNew_cases (created : h.typeNew metatype bases attrs = some (h', cls)) :
    Created h bases attrs h' cls := by
  unfold typeNew at created
  split at created
  · rename_i ready
    split at created
    · rename_i metaclass lin won order
      cases created
      obtain ⟨nodup, ordered⟩ := typeNew_ordered ready.2.2 order
      obtain ⟨bound, -, derives⟩ := winner_spec ready.2.2 ready.1 won
      exact {
        cls_eq := rfl
        next := rfl
        exist := ready.2.2
        type := fun c hc => Function.update_of_ne (Nat.ne_of_lt hc) _ _
        mro := fun c hc => Function.update_of_ne (Nat.ne_of_lt hc) _ _
        own := fun c hc => Function.update_of_ne (Nat.ne_of_lt hc) _ _
        own_cls := Function.update_self _ _ _
        derives := fun b hb => by
          simp only [alloc, Function.update_self, Function.update_of_ne (Nat.ne_of_lt bound)]
          exact derives b hb
        nodup := nodup
        ordered := ordered }
    · cases created
  · cases created

theorem Created.path (C : Created h bases attrs h' cls) {c : ClassId} (hc : c < h.next) :
    h'.path c = h.path c := by
  rw [Heap.path, Heap.path, C.type c hc, C.mro c hc, C.mro _ (h.type_bound c hc)]

theorem Created.getattr (C : Created h bases attrs h' cls) {c : ClassId} (hc : c < h.next) (k : N) :
    h'.getattr c k = h.getattr c k := by
  refine getattr_congr (C.path hc) fun a ha => congrFun (C.own a ?_) k
  rcases List.mem_append.mp ha with ha | ha
  · exact h.bound c hc a ha
  · exact h.bound _ (h.type_bound c hc) a ha

/-- **A class and one right below the root** can be bases together, if the metaclass of the second
derives from that of the first. -/
theorem typeNew_root {c i : ClassId} (hc : c < h.next) (hi : i < h.next) (below : c ≠ pyObject)
    (marker : h.mro i = [i, pyObject]) (apart : i ∉ h.mro c)
    (derives : h.type c ∈ h.mro (h.type i)) (attrs : N → Option V) :
    ∃ h', h.typeNew pyType [c, i] attrs = some (h', h.next) := by
  have type_lt : pyType < h.next :=
    h.bound _ (h.type_bound c hc) _ (h.pyType_mem hc)
  have won : ∃ metaclass, h.winner pyType [c, i] = some metaclass := by
    by_cases first : h.type c ∈ h.mro pyType <;> by_cases second : h.type i ∈ h.mro pyType <;>
      by_cases third : h.type i ∈ h.mro (h.type c) <;>
      simp [winner, first, second, third, h.pyType_mem hc, h.pyType_mem hi, derives]
  obtain ⟨metaclass, won⟩ := won
  obtain ⟨t, ht⟩ := h.mro_eq hc
  have last := h.root c hc
  obtain ⟨xs, hxs⟩ : ∃ xs, t = xs ++ [pyObject] := by
    rw [ht, List.getLast?_cons] at last
    cases hlast : t.getLast? with
    | none =>
      rw [hlast] at last
      exact absurd (Option.some.inj last) below
    | some o =>
      rw [hlast] at last
      obtain rfl : o = pyObject := Option.some.inj last
      exact List.getLast?_eq_some_iff.mp hlast
  have distinct : (c :: xs ++ [i, pyObject]).Nodup := by
    have nodup := h.nodup c hc
    have rooted := h.nodup i hi
    rw [ht, hxs] at nodup apart
    rw [marker] at rooted
    simp only [List.cons_append, List.nodup_cons, List.mem_append, List.mem_cons,
      List.not_mem_nil, or_false, not_or, List.nodup_append, List.nodup_nil] at nodup apart rooted ⊢
    grind
  have order : h.linearize [c, i] = some (c :: xs ++ [i, pyObject]) := by
    have seqs : [c, i].map h.mro ++ [[c, i]] = [c :: xs ++ [pyObject], [i, pyObject], [c, i]] := by
      simp [ht, hxs, marker]
    rw [linearize, seqs]
    exact merge_base_last distinct
  unfold typeNew
  rw [dif_pos ⟨type_lt, by simp, by simp [hc, hi]⟩]
  split
  · exact ⟨_, rfl⟩
  · rename_i none
    exact absurd order (none _ _ won)

/-- **A single base**: the new class has `metatype` and the ancestors of the base. -/
theorem typeNew_single {b : ClassId} (hb : b < h.next) (hm : metatype < h.next)
    (derives : h.type b ∈ h.mro metatype) (attrs : N → Option V) :
    ∃ h', h.typeNew metatype [b] attrs = some (h', h.next) ∧ h'.type h.next = metatype ∧
      h'.mro h.next = h.next :: h.mro b := by
  have won : h.winner metatype [b] = some metatype := by
    simp [winner, derives]
  have order : h.linearize [b] = some (h.mro b) := by
    obtain ⟨t, ht⟩ := h.mro_eq hb
    have nodup := h.nodup b hb
    rw [ht] at nodup
    simp only [linearize, List.map_cons, List.map_nil, List.singleton_append, ht]
    exact merge_single nodup
  unfold typeNew
  rw [dif_pos ⟨hm, by simp, by simp [hb]⟩]
  split
  · rename_i metaclass lin won' order'
    cases won.symm.trans won'
    cases order.symm.trans order'
    exact ⟨_, rfl, Function.update_self _ _ _, Function.update_self _ _ _⟩
  · rename_i none
    exact absurd order (none _ _ won)

end Creation

end Heap

end Python
