/-
The injecting metaclass of `mapnik.py`.

A class statement whose bases hold `_injector` copies its dictionary into the other bases, which
are extension classes; what a name stood for before is kept under `_c_`. The guard of the loop is
meant to leave the marker out, but inside `__init__` the name `self` is the class under
construction and not the metaclass, so the marker is written to as well.

* `metaclassInit_eq` — the two loops as one list of passes.
* `injectAll_frame`, `injectAll_own_name`, `injectAll_own_saved` — what the passes leave.
* `passes_found` — what a pass finds is what stood there before the statement.
* `only_targets_iff` — when nothing but the extension classes is changed.
-/

import MapnikPackaging.Python.Classes
import Mathlib.Data.List.Lemmas

namespace MapnikPackaging.Bindings

open Python

/-! ### The metaclass -/

/-- `BoostPythonMetaclass`, the metaclass of the extension classes. -/
def boostMeta : ClassId := 2

/-- A class dictionary, with its items in their order. -/
structure Dict (V : Type) where
  items : List (String × V)
  nodup : (items.map Prod.fst).Nodup

def Dict.names {V : Type} (d : Dict V) : List String := d.items.map Prod.fst

/-- The dictionary as an attribute table. -/
def Dict.table {V : Type} (d : Dict V) (k : String) : Option V :=
  (d.items.find? (·.1 = k)).map (·.2)

/-- `'_c_'+k`. -/
def saved (k : String) : String := "_c_" ++ k

/-- One pass of the loop body: what `getattr` found and what was assigned. -/
structure Injection (V : Type) where
  target : ClassId
  name : String
  found : Option V
  value : V

/-- The names a pass assigns. -/
def Injection.assigned {V : Type} (e : Injection V) : List String :=
  if e.found.isSome then [saved e.name, e.name] else [e.name]

/-- The classes, with the passes made so far. -/
structure Progress (V : Type) where
  heap : Heap String V
  log : List (Injection V)

section Model

variable {V : Type}

/-- The loop body. -/
def inject (s : Progress V) (b : ClassId) (item : String × V) : Progress V :=
  let found := s.heap.getattr b item.1
  let heap := match found with
    | some x => s.heap.setattr b (saved item.1) x
    | none => s.heap
  ⟨heap.setattr b item.1 item.2, s.log ++ [⟨b, item.1, found, item.2⟩]⟩

/-- `_MapnikMetaclass.__init__`; `self` is the new class. -/
def metaclassInit (self : ClassId) (bases : List ClassId) (d : Dict V) (s : Progress V) :
    Progress V :=
  bases.foldl (fun s b =>
    if s.heap.type b ∉ [self, pyType] then d.items.foldl (fun s item => inject s b item) s
    else s) s

/-- The passes of the two loops. -/
def passes (h : Heap String V) (self : ClassId) (bases : List ClassId) (d : Dict V) :
    List (ClassId × String × V) :=
  (bases.filter fun b => h.type b ∉ [self, pyType]).flatMap fun b => d.items.map (b, ·)

def injectAll (s : Progress V) (L : List (ClassId × String × V)) : Progress V :=
  L.foldl (fun s p => inject s p.1 p.2) s

/-- The names written to a class. -/
def written (s : Progress V) (b : ClassId) : List String :=
  (s.log.filter (·.target = b)).flatMap Injection.assigned

end Model

section Passes

variable {V : Type} {s : Progress V} {b c self : ClassId} {item : String × V} {j k : String}
  {bases : List ClassId} {d : Dict V} {L L₁ L₂ : List (ClassId × String × V)}

theorem length_saved (k : String) : (saved k).length = k.length + 3 := by
  have three : "_c_".length = 3 := by decide
  rw [saved, String.length_append, three, Nat.add_comm]

theorem saved_ne (k : String) : saved k ≠ k := by
  intro same
  have length := length_saved k
  rw [same] at length
  omega

theorem saved_injective {j k : String} (same : saved j = saved k) : j = k :=
  (String.append_right_inj "_c_").mp same

/-! ### One pass -/

@[simp] theorem inject_next : (inject s b item).heap.next = s.heap.next := by
  unfold inject
  cases s.heap.getattr b item.1 <;> rfl

@[simp] theorem inject_type : (inject s b item).heap.type = s.heap.type := by
  unfold inject
  cases s.heap.getattr b item.1 <;> rfl

@[simp] theorem inject_mro : (inject s b item).heap.mro = s.heap.mro := by
  unfold inject
  cases s.heap.getattr b item.1 <;> rfl

/-- What one pass writes. -/
theorem inject_own : (inject s b item).heap.own c j =
    if c = b ∧ j = item.1 then some item.2
    else if c = b ∧ j = saved item.1 ∧ (s.heap.getattr b item.1).isSome then
      s.heap.getattr b item.1
    else s.heap.own c j := by
  unfold inject
  cases found : s.heap.getattr b item.1 with
  | none => simp [Heap.setattr_own]
  | some x =>
    simp only [Heap.setattr_own, Option.isSome_some, and_true]

theorem inject_own_of_ne (apart : c = b → j ≠ item.1 ∧ j ≠ saved item.1) :
    (inject s b item).heap.own c j = s.heap.own c j := by
  rw [inject_own, if_neg (fun h => (apart h.1).1 h.2), if_neg (fun h => (apart h.1).2 h.2.1)]

/-! ### All passes -/

theorem injectAll_append : injectAll s (L₁ ++ L₂) = injectAll (injectAll s L₁) L₂ :=
  List.foldl_append

@[simp] theorem injectAll_next : (injectAll s L).heap.next = s.heap.next := by
  induction L generalizing s with
  | nil => rfl
  | cons p L ih => exact (ih (s := inject s p.1 p.2)).trans inject_next

@[simp] theorem injectAll_type : (injectAll s L).heap.type = s.heap.type := by
  induction L generalizing s with
  | nil => rfl
  | cons p L ih => exact (ih (s := inject s p.1 p.2)).trans inject_type

@[simp] theorem injectAll_mro : (injectAll s L).heap.mro = s.heap.mro := by
  induction L generalizing s with
  | nil => rfl
  | cons p L ih => exact (ih (s := inject s p.1 p.2)).trans inject_mro

@[simp] theorem injectAll_path : (injectAll s L).heap.path c = s.heap.path c := by
  rw [Heap.path, Heap.path, injectAll_type, injectAll_mro]

theorem metaclassInit_eq :
    metaclassInit self bases d s = injectAll s (passes s.heap self bases d) := by
  induction bases generalizing s with
  | nil => rfl
  | cons b bs ih =>
    unfold metaclassInit at ih ⊢
    rw [List.foldl_cons, ih]
    by_cases target : s.heap.type b ∉ [self, pyType]
    · have items : d.items.foldl (fun s item => inject s b item) s
          = injectAll s (d.items.map (b, ·)) := by
        rw [injectAll, List.foldl_map]
      have kept : passes s.heap self (b :: bs) d =
          d.items.map (b, ·) ++ passes s.heap self bs d := by
        unfold passes
        rw [List.filter_cons, if_pos (decide_eq_true target), List.flatMap_cons]
      rw [if_pos target, items, kept, injectAll_append, passes, passes, injectAll_type]
    · have dropped : passes s.heap self (b :: bs) d = passes s.heap self bs d := by
        unfold passes
        rw [List.filter_cons, if_neg (by simpa only [decide_eq_true_eq] using target)]
      rw [if_neg target, dropped]

/-- **What no pass assigns stays.** -/
theorem injectAll_frame (apart : ∀ p ∈ L, c = p.1 → j ≠ p.2.1 ∧ j ≠ saved p.2.1) :
    (injectAll s L).heap.own c j = s.heap.own c j := by
  induction L generalizing s with
  | nil => rfl
  | cons p L ih =>
    exact (ih fun q hq => apart q (by simp [hq])).trans (inject_own_of_ne (apart p (by simp)))

/-- The last assignment of a name stays. -/
theorem injectAll_own_name {p : ClassId × String × V}
    (later : ∀ q ∈ L₂, p.1 = q.1 → p.2.1 ≠ q.2.1 ∧ p.2.1 ≠ saved q.2.1) :
    (injectAll s (L₁ ++ p :: L₂)).heap.own p.1 p.2.1 = some p.2.2 := by
  rw [injectAll_append]
  apply (injectAll_frame (s := inject (injectAll s L₁) p.1 p.2) later).trans
  rw [inject_own, if_pos ⟨rfl, rfl⟩]

/-- What was found is kept under the other name. -/
theorem injectAll_own_saved {p : ClassId × String × V} {x : V}
    (found : (injectAll s L₁).heap.getattr p.1 p.2.1 = some x)
    (later : ∀ q ∈ L₂, p.1 = q.1 → saved p.2.1 ≠ q.2.1 ∧ saved p.2.1 ≠ saved q.2.1) :
    (injectAll s (L₁ ++ p :: L₂)).heap.own p.1 (saved p.2.1) = some x := by
  rw [injectAll_append]
  apply (injectAll_frame (s := inject (injectAll s L₁) p.1 p.2) later).trans
  rw [inject_own, if_neg (fun h => saved_ne _ h.2), if_pos ⟨rfl, rfl, by simp [found]⟩, found]

/-- A pass finds what was there at the start if the earlier ones left its path alone. -/
theorem injectAll_getattr (apart : ∀ p ∈ L, p.1 ∈ s.heap.path c → k ≠ p.2.1 ∧ k ≠ saved p.2.1) :
    (injectAll s L).heap.getattr c k = s.heap.getattr c k :=
  Heap.getattr_congr injectAll_path fun _ ha =>
    injectAll_frame fun p hp same => apart p hp (same ▸ ha)

/-- The log of the passes. -/
theorem mem_injectAll_log {e : Injection V} : e ∈ (injectAll s L).log ↔
    e ∈ s.log ∨ ∃ L₁ p L₂, L = L₁ ++ p :: L₂ ∧
      e = ⟨p.1, p.2.1, (injectAll s L₁).heap.getattr p.1 p.2.1, p.2.2⟩ := by
  induction L generalizing s with
  | nil => simp [injectAll]
  | cons p L ih =>
    have step : (inject s p.1 p.2).log =
        s.log ++ [⟨p.1, p.2.1, s.heap.getattr p.1 p.2.1, p.2.2⟩] := rfl
    show e ∈ (injectAll (inject s p.1 p.2) L).log ↔ _
    rw [ih, step, List.mem_append, List.mem_singleton, or_assoc]
    refine or_congr_right ⟨?_, ?_⟩
    · rintro (rfl | ⟨L₁, q, L₂, rfl, rfl⟩)
      · exact ⟨[], p, L, rfl, rfl⟩
      · exact ⟨p :: L₁, q, L₂, rfl, rfl⟩
    · rintro ⟨L₁, q, L₂, hL, rfl⟩
      cases L₁ with
      | nil =>
        obtain ⟨rfl, rfl⟩ := List.cons.inj hL
        exact .inl rfl
      | cons p' L₁ =>
        obtain ⟨rfl, rfl⟩ := List.cons.inj hL
        exact .inr ⟨L₁, q, L₂, rfl, rfl⟩

/-- A lookup succeeds after a pass if it did before, or for the names assigned. -/
theorem inject_getattr_isSome (hb : b < s.heap.next) :
    ((inject s b item).heap.getattr b k).isSome ↔ (s.heap.getattr b k).isSome ∨ k = item.1 ∨
      (k = saved item.1 ∧ (s.heap.getattr b item.1).isSome) := by
  have here : b ∈ s.heap.path b := List.mem_append_left _ (s.heap.mem_mro hb)
  have path : (inject s b item).heap.path b = s.heap.path b := by
    rw [Heap.path, Heap.path, inject_type, inject_mro]
  have lookup : ∀ (h : Heap String V) (n : String),
      (h.getattr b n).isSome ↔ ∃ a ∈ h.path b, (h.own a n).isSome := fun h n =>
    List.findSome?_isSome_iff
  rw [lookup (inject s b item).heap, path, lookup s.heap k]
  constructor
  · rintro ⟨a, ha, some⟩
    rw [inject_own] at some
    split at some
    · rename_i name
      exact .inr (.inl name.2)
    · split at some
      · rename_i kept
        exact .inr (.inr kept.2)
      · exact .inl ⟨a, ha, some⟩
  · rintro (⟨a, ha, some⟩ | rfl | ⟨rfl, found⟩)
    · refine ⟨a, ha, ?_⟩
      rw [inject_own]
      split
      · rfl
      · split
        · rename_i kept
          exact kept.2.2
        · exact some
    · exact ⟨b, here, by rw [inject_own, if_pos ⟨rfl, rfl⟩]; rfl⟩
    · refine ⟨b, here, ?_⟩
      rw [inject_own, if_neg fun same => saved_ne _ same.2, if_pos ⟨rfl, rfl, found⟩]
      exact found

theorem mem_written {n : String} :
    n ∈ written s b ↔ ∃ e ∈ s.log, e.target = b ∧ n ∈ e.assigned := by
  simp [written, and_assoc]

/-! ### The passes on one class -/

/-- The passes on a class depend on the tables on its path. -/
theorem injectAll_congr {t : Progress V} (at_b : ∀ p ∈ L, p.1 = b)
    (path : t.heap.path b = s.heap.path b)
    (tables : ∀ a ∈ s.heap.path b, t.heap.own a = s.heap.own a) :
    ∀ a ∈ s.heap.path b, (injectAll t L).heap.own a = (injectAll s L).heap.own a := by
  induction L using List.reverseRecOn with
  | nil => exact tables
  | append_singleton L p ih =>
    have before := ih fun q hq => at_b q (List.mem_append_left _ hq)
    obtain rfl : p.1 = b := at_b p (by simp)
    have same : (injectAll t L).heap.getattr p.1 p.2.1 = (injectAll s L).heap.getattr p.1 p.2.1 := by
      apply Heap.getattr_congr (by rw [injectAll_path, injectAll_path, path])
      intro a ha
      rw [injectAll_path] at ha
      rw [before a ha]
    intro a ha
    rw [injectAll_append, injectAll_append]
    funext j
    show (inject (injectAll t L) p.1 p.2).heap.own a j =
      (inject (injectAll s L) p.1 p.2).heap.own a j
    rw [inject_own, inject_own, same, before a ha]

/-- What the passes before have made of the lookups on a class. -/
theorem getattr_isSome_iff (hb : b < s.heap.next) {items : List (String × V)} :
    ((injectAll s (items.map (b, ·))).heap.getattr b k).isSome ↔
      (s.heap.getattr b k).isSome ∨ ∃ I₁ item I₂, items = I₁ ++ item :: I₂ ∧
        (k = item.1 ∨ (k = saved item.1 ∧
          ((injectAll s (I₁.map (b, ·))).heap.getattr b item.1).isSome)) := by
  induction items using List.reverseRecOn with
  | nil => simp [injectAll]
  | append_singleton items item ih =>
    have step : injectAll s ((items ++ [item]).map (b, ·)) =
        inject (injectAll s (items.map (b, ·))) b item := by
      rw [List.map_append, injectAll_append]
      rfl
    rw [step, inject_getattr_isSome (by rwa [injectAll_next]), ih, or_assoc]
    refine or_congr_right ⟨?_, ?_⟩
    · rintro (⟨I₁, i, I₂, rfl, how⟩ | how)
      · exact ⟨I₁, i, I₂ ++ [item], by simp, how⟩
      · exact ⟨items, item, [], rfl, how⟩
    · rintro ⟨I₁, i, I₂, split, how⟩
      rcases List.eq_nil_or_concat I₂ with rfl | ⟨I₂, last, rfl⟩
      · obtain ⟨rfl, last⟩ := List.append_inj' split rfl
        cases last
        exact .inr how
      · rw [List.concat_eq_append, ← List.cons_append, ← List.append_assoc] at split
        obtain ⟨rfl, -⟩ := List.append_inj' split rfl
        exact .inl ⟨I₁, i, I₂, rfl, how⟩

/-- The names the passes on a class write. -/
theorem mem_written_items {items : List (String × V)} {n : String} :
    n ∈ written (injectAll s (items.map (b, ·))) b ↔ n ∈ written s b ∨
      ∃ I₁ item I₂, items = I₁ ++ item :: I₂ ∧ (n = item.1 ∨ (n = saved item.1 ∧
        ((injectAll s (I₁.map (b, ·))).heap.getattr b item.1).isSome)) := by
  simp only [mem_written, mem_injectAll_log]
  constructor
  · rintro ⟨e, old | ⟨L₁, p, L₂, split, rfl⟩, at_b, name⟩
    · exact .inl ⟨e, old, at_b, name⟩
    · obtain ⟨I₁, rest, rfl, rfl, behind⟩ := List.map_eq_append_iff.mp split
      obtain ⟨item, I₂, rfl, rfl, rfl⟩ := List.map_eq_cons_iff.mp behind
      refine .inr ⟨I₁, item, I₂, rfl, ?_⟩
      unfold Injection.assigned at name
      split at name
      · rename_i found
        simp only [List.mem_cons, List.not_mem_nil, or_false] at name
        exact name.symm.imp_right fun same => ⟨same, found⟩
      · exact .inl (List.mem_singleton.mp name)
  · rintro (⟨e, old, at_b, name⟩ | ⟨I₁, item, I₂, rfl, how⟩)
    · exact ⟨e, .inl old, at_b, name⟩
    · refine ⟨_, .inr ⟨I₁.map (b, ·), (b, item), I₂.map (b, ·), by simp, rfl⟩, rfl, ?_⟩
      unfold Injection.assigned
      rcases how with rfl | ⟨rfl, found⟩
      · split <;> simp
      · rw [if_pos found]
        exact List.mem_cons_self

theorem written_of_ne {n : String} (off : ∀ p ∈ L, p.1 ≠ b) :
    n ∈ written (injectAll s L) b ↔ n ∈ written s b := by
  simp only [mem_written, mem_injectAll_log]
  constructor
  · rintro ⟨e, old | ⟨L₁, p, L₂, rfl, rfl⟩, at_b, name⟩
    · exact ⟨e, old, at_b, name⟩
    · exact absurd at_b (off p (by simp))
  · rintro ⟨e, old, at_b, name⟩
    exact ⟨e, .inl old, at_b, name⟩

/-- A class that has everything already stays as it is. -/
theorem injectAll_own_settled (hc : c < s.heap.next) (settled : ∀ p ∈ L, p.1 = c →
      s.heap.own c p.2.1 = some p.2.2 ∧ s.heap.own c (saved p.2.1) = some p.2.2) :
    (injectAll s L).heap.own c = s.heap.own c := by
  induction L using List.reverseRecOn with
  | nil => rfl
  | append_singleton L p ih =>
    have before := ih fun q hq => settled q (List.mem_append_left _ hq)
    rw [injectAll_append]
    funext j
    show (inject (injectAll s L) p.1 p.2).heap.own c j = _
    rw [inject_own, before]
    split
    · rename_i name
      rw [name.2, (settled p (by simp) name.1.symm).1]
    · split
      · rename_i kept
        obtain ⟨rfl, rfl, -⟩ := kept
        obtain ⟨name, second⟩ := settled p (by simp) rfl
        rw [Heap.getattr_of_own (by rwa [injectAll_next]) (before ▸ name), second]
      · rfl

/-- The passes do not depend on the log. -/
theorem injectAll_log (h : Heap String V) (log : List (Injection V)) :
    injectAll ⟨h, log⟩ L = ⟨(injectAll ⟨h, []⟩ L).heap, log ++ (injectAll ⟨h, []⟩ L).log⟩ := by
  induction L using List.reverseRecOn with
  | nil => simp [injectAll]
  | append_singleton L p ih =>
    rw [injectAll_append, injectAll_append, ih]
    simp only [injectAll, List.foldl_cons, List.foldl_nil, inject, List.append_assoc]

end Passes

/-! ### The class statement -/

/-- What Boost.Python promises of its metaclass: it and its ancestors are plain classes. -/
def BoostPlain {V : Type} (h : Heap String V) : Prop := ∀ m ∈ h.mro boostMeta, h.type m = pyType

section Statement

variable {V : Type}

/-- **Only the targets change.** `h` holds the classes when `__init__` begins. -/
structure ChangesOnlyTargets (h : Heap String V) (cls : ClassId) (bases : List ClassId)
    (d : Dict V) : Prop where
  /-- a class that changes is an extension class and a base -/
  only : ∀ c, (metaclassInit cls bases d ⟨h, []⟩).heap.own c ≠ h.own c →
    c ∈ bases ∧ h.type c = boostMeta
  /-- the names written are those of `d` and, with the prefix, those that were there -/
  writes : ∀ b ∈ bases, h.type b = boostMeta → ∀ n,
    n ∈ written (metaclassInit cls bases d ⟨h, []⟩) b ↔
      n ∈ d.names ∨ ∃ k ∈ d.names, (h.getattr b k).isSome ∧ n = saved k
  /-- among the same classes, only the tables a lookup on the base goes through matter -/
  independent : ∀ b ∈ bases, h.type b = boostMeta → ∀ h' : Heap String V,
    h'.type = h.type → h'.mro = h.mro → (∀ a ∈ h.path b, h'.own a = h.own a) →
    (metaclassInit cls bases d ⟨h', []⟩).heap.own b =
      (metaclassInit cls bases d ⟨h, []⟩).heap.own b

/-- Every base that the guard lets through without being an extension class, the marker among
them, already has each item under both names. -/
def SparesOthers (h : Heap String V) (bases : List ClassId) (d : Dict V) : Prop :=
  ∀ b ∈ bases, h.type b ≠ boostMeta → h.type b ≠ pyType → ∀ item ∈ d.items,
    h.own b item.1 = some item.2 ∧ h.own b (saved item.1) = some item.2

/-- From one name of the dictionary to the name it is kept under, while that is a name too. -/
def Dict.Leads (d : Dict V) : String → String → Prop :=
  Relation.ReflTransGen fun k n => n = saved k ∧ n ∈ d.names

/-- Where a name that was there leads to another, the last one was there as well. -/
def ChainsThere (h : Heap String V) (bases : List ClassId) (d : Dict V) : Prop :=
  ∀ b ∈ bases, h.type b = boostMeta → ∀ k ∈ d.names, (h.getattr b k).isSome →
    ∀ n, d.Leads k n → saved n ∉ d.names → (h.getattr b n).isSome

variable {h₀ h : Heap String V} {metatype self b c : ClassId} {bases : List ClassId}
  {attrs : String → Option V} {d : Dict V}

theorem exists_old (C : Heap.Created h₀ bases attrs h self) (hb : b ∈ bases) : b < h.next :=
  C.next ▸ Nat.lt_succ_of_lt (C.exist b hb)

/-- The guard never finds the class under construction. -/
theorem type_ne_self (C : Heap.Created h₀ bases attrs h self) (hb : b ∈ bases) :
    h.type b ≠ self := by
  have old := C.exist b hb
  rw [C.type b old, C.cls_eq]
  exact Nat.ne_of_lt (h₀.type_bound b old)

theorem mem_passes {p : ClassId × String × V} (hp : p ∈ passes h self bases d) :
    p.1 ∈ bases ∧ h.type p.1 ≠ pyType ∧ p.2 ∈ d.items := by
  obtain ⟨b, hb, hp⟩ := List.mem_flatMap.mp hp
  obtain ⟨hb, guard⟩ := List.mem_filter.mp hb
  obtain ⟨item, hitem, rfl⟩ := List.mem_map.mp hp
  simp only [List.mem_cons, List.not_mem_nil, or_false, not_or, decide_eq_true_eq] at guard
  exact ⟨hb, guard.2, hitem⟩

/-- The passes on one base, between those on bases it does not descend from and the rest. -/
theorem passes_split (C : Heap.Created h₀ bases attrs h self) (hb : b ∈ bases)
    (other : h.type b ≠ pyType) : ∃ P Q,
      passes h self bases d = P ++ (d.items.map (b, ·) ++ Q) ∧
      (∀ p ∈ P, p.1 ∉ h.mro b ∧ h.type p.1 ≠ pyType) ∧ ∀ p ∈ Q, p.1 ≠ b := by
  obtain ⟨B₁, B₂, rfl⟩ := List.append_of_mem hb
  have exists_b := C.exist b hb
  have before : ∀ c ∈ B₁, c ∉ h.mro b := by
    intro c hc
    rw [C.mro b exists_b]
    exact (List.pairwise_append.mp C.ordered).2.2 c hc b (by simp)
  have after : ∀ c ∈ B₂, c ≠ b := by
    intro c hc same
    have nodup := (List.nodup_append.mp C.nodup).2.1
    exact (List.nodup_cons.mp nodup).1 (same ▸ hc)
  refine ⟨passes h self B₁ d, passes h self B₂ d, ?_, fun p hp => ?_, fun p hp => ?_⟩
  · unfold passes
    rw [List.filter_append, List.flatMap_append, List.filter_cons, if_pos, List.flatMap_cons]
    simpa using ⟨type_ne_self C hb, other⟩
  · obtain ⟨hp, other, -⟩ := mem_passes hp
    exact ⟨before _ hp, other⟩
  · exact after _ (mem_passes hp).1

/-- A class that is no ancestor of an extension class and not a plain one is off its path. -/
theorem off_path (C : Heap.Created h₀ bases attrs h self) (plain : BoostPlain h₀) (hb : b ∈ bases)
    (extension : h.type b = boostMeta) (apart : c ∉ h.mro b) (other : h.type c ≠ pyType) :
    c ∉ h.path b := by
  intro on_path
  have exists_b := C.exist b hb
  have boost : boostMeta < h₀.next := by
    rw [← extension, C.type b exists_b]
    exact h₀.type_bound b exists_b
  rcases List.mem_append.mp on_path with ancestor | above
  · exact apart ancestor
  · rw [extension, C.mro _ boost] at above
    rw [C.type c (h₀.bound _ boost c above)] at other
    exact other (plain c above)

/-- For an extension class the earlier passes are off its path. -/
theorem passes_split_extension (C : Heap.Created h₀ bases attrs h self) (plain : BoostPlain h₀)
    (hb : b ∈ bases) (extension : h.type b = boostMeta) : ∃ P Q,
      passes h self bases d = P ++ (d.items.map (b, ·) ++ Q) ∧
      (∀ p ∈ P, p.1 ∉ h.path b) ∧ ∀ p ∈ Q, p.1 ≠ b := by
  obtain ⟨P, Q, split, before, after⟩ := passes_split C hb (by
    rw [extension]
    decide)
  exact ⟨P, Q, split, fun p hp =>
    off_path C plain hb extension (before p hp).1 (before p hp).2, after⟩

/-- No pass is on a class and a name twice, and for an extension class the earlier passes on other
classes are off its path. -/
theorem passes_pairwise (C : Heap.Created h₀ bases attrs h self) (plain : BoostPlain h₀) :
    (passes h self bases d).Pairwise fun p q => (p.1 = q.1 → p.2.1 ≠ q.2.1) ∧
      (h.type q.1 = boostMeta → p.1 ∈ h.path q.1 → p.1 = q.1) := by
  have names : d.items.Pairwise fun i j => i.1 ≠ j.1 := List.pairwise_map.mp d.nodup
  refine List.pairwise_flatMap.mpr ⟨fun b _ => List.pairwise_map.mpr ?_, ?_⟩
  · exact names.imp fun apart => ⟨fun _ => apart, fun _ _ => rfl⟩
  · have ordered : bases.Pairwise fun b' b => b' ≠ b ∧ b' ∉ h₀.mro b :=
      List.Pairwise.and C.nodup C.ordered
    apply (List.Pairwise.and_mem.mp (List.Pairwise.filter _ ordered)).imp
    rintro b' b ⟨hb', hb, ne, apart⟩ p hp q hq
    obtain ⟨i, -, rfl⟩ := List.mem_map.mp hp
    obtain ⟨j, -, rfl⟩ := List.mem_map.mp hq
    obtain ⟨-, guard⟩ := List.mem_filter.mp hb'
    obtain ⟨hb, -⟩ := List.mem_filter.mp hb
    simp only [List.mem_cons, List.not_mem_nil, or_false, not_or, decide_eq_true_eq] at guard
    rw [← C.mro b (C.exist b hb)] at apart
    exact ⟨fun same => absurd same ne, fun extension on_path =>
      absurd on_path (off_path C plain hb extension apart guard.2)⟩

/-- The name is found once the passes on `items` are made. -/
def Found (h : Heap String V) (b : ClassId) (items : List (String × V)) (k : String) : Prop :=
  ((injectAll ⟨h, []⟩ (items.map (b, ·))).heap.getattr b k).isSome

/-- What the statement writes to an extension class, by the passes on that class alone. -/
theorem written_extension (C : Heap.Created h₀ bases attrs h self) (plain : BoostPlain h₀)
    (hb : b ∈ bases) (extension : h.type b = boostMeta) {n : String} :
    n ∈ written (metaclassInit self bases d ⟨h, []⟩) b ↔ ∃ I₁ item I₂, d.items = I₁ ++ item :: I₂ ∧
      (n = item.1 ∨ (n = saved item.1 ∧ Found h b I₁ item.1)) := by
  obtain ⟨P, Q, split, before, after⟩ := passes_split_extension C plain hb extension
  have exists_b : b < h.next := exists_old C hb
  have off : ∀ p ∈ P, p.1 ≠ b := fun p hp same =>
    before p hp (List.mem_append_left _ (by rw [same]; exact h.mem_mro exists_b))
  have none : n ∉ written (injectAll ⟨h, []⟩ P) b := by
    rw [written_of_ne off]
    exact List.not_mem_nil
  have same : ∀ I : List (String × V), ∀ k,
      (injectAll (injectAll ⟨h, []⟩ P) (I.map (b, ·))).heap.getattr b k =
        (injectAll ⟨h, []⟩ (I.map (b, ·))).heap.getattr b k := by
    intro I k
    apply Heap.getattr_congr (by simp)
    intro a ha
    rw [injectAll_path] at ha
    refine congrFun
      (injectAll_congr (b := b) (fun p hp => ?_) injectAll_path (fun c hc => ?_) a ha) k
    · obtain ⟨item, -, rfl⟩ := List.mem_map.mp hp
      rfl
    exact funext fun j => injectAll_frame fun p hp at_c => absurd (at_c ▸ hc) (before p hp)
  rw [metaclassInit_eq, split, injectAll_append, injectAll_append, written_of_ne after,
    mem_written_items, or_iff_right none]
  simp only [Found, same]

/-- A name that a pass finds was there, or a name that was there leads to it. -/
theorem found_leads (exists_b : b < h.next) {I₁ I₂ : List (String × V)} {item : String × V}
    (split : d.items = I₁ ++ item :: I₂) (found : Found h b I₁ item.1) :
    ∃ k ∈ d.names, (h.getattr b k).isSome ∧ d.Leads k item.1 := by
  have name : item.1 ∈ d.names := List.mem_map_of_mem (split ▸ by simp)
  rcases (getattr_isSome_iff exists_b).mp found with
    there | ⟨J₁, other, J₂, rfl, same | ⟨same, earlier⟩⟩
  · exact ⟨item.1, name, there, .refl⟩
  · have nodup := d.nodup
    rw [split, List.map_append, List.map_append] at nodup
    have apart := (List.nodup_append.mp nodup).2.2
    exact absurd same.symm (apart other.1 (by simp) item.1 (by simp))
  · obtain ⟨k, hk, there, leads⟩ := found_leads exists_b
      (split.trans (List.append_assoc _ _ _)) earlier
    exact ⟨k, hk, there, leads.tail ⟨same, name⟩⟩
termination_by I₁.length

theorem Dict.Leads.mem {k n : String} (leads : d.Leads k n) (hk : k ∈ d.names) : n ∈ d.names := by
  cases leads with
  | refl => exact hk
  | tail _ step => exact step.2

/-- In the order of their lengths, the names that one leads to are all found. -/
theorem leads_found (sorted : d.items.Pairwise fun i j => i.1.length ≤ j.1.length)
    (exists_b : b < h.next) {k n : String} (hk : k ∈ d.names) (there : (h.getattr b k).isSome)
    (leads : d.Leads k n) : ∀ I₁ v I₂, d.items = I₁ ++ (n, v) :: I₂ → Found h b I₁ n := by
  induction leads with
  | refl => exact fun I₁ v I₂ _ => (getattr_isSome_iff exists_b).mpr (.inl there)
  | tail leads step ih =>
    rename_i m n
    obtain ⟨rfl, -⟩ := step
    intro I₁ v I₂ split
    obtain ⟨item, hitem, rfl⟩ := List.mem_map.mp (Dict.Leads.mem leads hk)
    have longer := length_saved item.1
    rw [split] at hitem sorted
    have first : item ∈ I₁ := by
      rcases List.mem_append.mp hitem with hitem | hitem
      · exact hitem
      rcases List.mem_cons.mp hitem with same | hitem
      · exact absurd (congrArg Prod.fst same).symm (saved_ne item.1)
      · have behind := (List.pairwise_cons.mp (List.pairwise_append.mp sorted).2.1).1 _ hitem
        simp only at behind
        omega
    obtain ⟨J₁, J₂, rfl⟩ := List.append_of_mem first
    refine (getattr_isSome_iff exists_b).mpr (.inr ⟨J₁, item, J₂, rfl, .inr ⟨rfl, ?_⟩⟩)
    exact ih J₁ item.2 _ (split.trans (List.append_assoc _ _ _))

/-- **What is written to an extension class**, whatever the order of the items. -/
theorem written_iff (C : Heap.Created h₀ bases attrs h self) (plain : BoostPlain h₀)
    (chains : ChainsThere h bases d) (hb : b ∈ bases) (extension : h.type b = boostMeta)
    (n : String) : n ∈ written (metaclassInit self bases d ⟨h, []⟩) b ↔
      n ∈ d.names ∨ ∃ k ∈ d.names, (h.getattr b k).isSome ∧ n = saved k := by
  have exists_b : b < h.next := exists_old C hb
  rw [written_extension C plain hb extension]
  constructor
  · rintro ⟨I₁, item, I₂, split, rfl | ⟨rfl, found⟩⟩
    · exact .inl (List.mem_map_of_mem (split ▸ by simp))
    by_cases name : saved item.1 ∈ d.names
    · exact .inl name
    obtain ⟨k, hk, there, leads⟩ := found_leads exists_b split found
    exact .inr ⟨item.1, leads.mem hk, chains b hb extension k hk there _ leads name, rfl⟩
  · rintro (name | ⟨k, hk, there, rfl⟩)
    · obtain ⟨item, hitem, rfl⟩ := List.mem_map.mp name
      obtain ⟨I₁, I₂, split⟩ := List.append_of_mem hitem
      exact ⟨I₁, item, I₂, split, .inl rfl⟩
    · obtain ⟨item, hitem, rfl⟩ := List.mem_map.mp hk
      obtain ⟨I₁, I₂, split⟩ := List.append_of_mem hitem
      exact ⟨I₁, item, I₂, split, .inr ⟨rfl, (getattr_isSome_iff exists_b).mpr (.inl there)⟩⟩

/-- A class whose items are all there already is not changed. -/
theorem spared_own (C : Heap.Created h₀ bases attrs h self) (spares : SparesOthers h bases d)
    (apart : ¬(c ∈ bases ∧ h.type c = boostMeta)) :
    (metaclassInit self bases d ⟨h, []⟩).heap.own c = h.own c := by
  rw [metaclassInit_eq]
  by_cases base : c ∈ bases
  · apply injectAll_own_settled (exists_old C base)
    intro p hp same
    obtain ⟨-, other, hitem⟩ := mem_passes hp
    exact spares c base (fun boost => apart ⟨base, boost⟩) (same ▸ other) p.2 hitem
  · exact funext fun j => injectAll_frame fun p hp same => absurd (same ▸ (mem_passes hp).1) base

/-- In every order of the items the marker stays as it is only if it has them all. -/
theorem spares_of_unchanged (C : Heap.Created h₀ bases attrs h self)
    (unchanged : ∀ d' : Dict V, d'.items.Perm d.items → ∀ b ∈ bases, h.type b ≠ boostMeta →
      (metaclassInit self bases d' ⟨h, []⟩).heap.own b = h.own b) : SparesOthers h bases d := by
  intro b hb other notType item hitem
  -- the item is the last one that writes its name, or its other name, in some order
  have order : ∀ I₁ I₂ : List (String × V), (I₁ ++ item :: I₂).Perm d.items →
      ∃ P Q, (∀ p ∈ P, p.1 ≠ b ∨ p.2 ∈ I₁) ∧ (∀ p ∈ Q, p.1 ≠ b ∨ p.2 ∈ I₂) ∧
        (injectAll ⟨h, []⟩ (P ++ (b, item) :: Q)).heap.own b = h.own b := by
    intro I₁ I₂ perm
    let d' : Dict V := ⟨I₁ ++ item :: I₂, (perm.map Prod.fst).nodup_iff.mpr d.nodup⟩
    obtain ⟨P, Q, split, before, after⟩ := passes_split (d := d') C hb notType
    have off : ∀ p ∈ P, p.1 ≠ b := fun p hp same => (before p hp).1 (by
      rw [same]
      exact h.mem_mro (exists_old C hb))
    refine ⟨P ++ I₁.map (b, ·), I₂.map (b, ·) ++ Q, fun p hp => ?_, fun p hp => ?_, ?_⟩
    · rcases List.mem_append.mp hp with hp | hp
      · exact .inl (off p hp)
      · obtain ⟨i, hi, rfl⟩ := List.mem_map.mp hp
        exact .inr hi
    · rcases List.mem_append.mp hp with hp | hp
      · obtain ⟨i, hi, rfl⟩ := List.mem_map.mp hp
        exact .inr hi
      · exact .inl (after p hp)
    · have same := unchanged d' perm b hb other
      rw [metaclassInit_eq, split] at same
      simpa [d'] using same
  obtain ⟨X, Y, hXY⟩ := List.append_of_mem hitem
  have name : h.own b item.1 = some item.2 := by
    obtain ⟨P, Q, -, after, same⟩ := order (X ++ Y) [] (by
      rw [hXY]
      exact (List.perm_append_singleton _ _).trans List.perm_middle.symm)
    rw [← same]
    apply injectAll_own_name (p := (b, item))
    intro q hq at_b
    rcases after q hq with off | hq
    · exact absurd at_b.symm off
    · cases hq
  refine ⟨name, ?_⟩
  have length := length_saved item.1
  have apart : ∀ i ∈ X ++ Y, item.1 ≠ i.1 := by
    intro i hi
    have nodup := d.nodup
    rw [(List.Perm.map Prod.fst (hXY ▸ List.perm_middle)).nodup_iff, List.map_cons] at nodup
    exact fun same => (List.nodup_cons.mp nodup).1 (same ▸ List.mem_map_of_mem hi)
  obtain ⟨P, Q, before, after, same⟩ := order ((X ++ Y).filter (·.1 = saved item.1))
      ((X ++ Y).filter fun i => ! decide (i.1 = saved item.1)) (by
    rw [hXY]
    exact List.perm_middle.trans (((List.filter_append_perm _ _).cons item).trans
      List.perm_middle.symm))
  rw [← same]
  refine injectAll_own_saved (p := (b, item)) (Heap.getattr_of_own ?_ ?_) fun q hq at_b => ?_
  · rw [injectAll_next]
    exact exists_old C hb
  · refine (injectAll_frame fun p hp at_b => ?_).trans name
    rcases before p hp with off | hp
    · exact absurd at_b.symm off
    · have named : p.2.1 = saved item.1 := by simpa using (List.mem_filter.mp hp).2
      have second := length_saved (saved item.1)
      rw [named]
      refine ⟨(saved_ne item.1).symm, fun same : item.1 = saved (saved item.1) => ?_⟩
      rw [← same] at second
      omega
  · rcases after q hq with off | hq
    · exact absurd at_b.symm off
    · obtain ⟨hq, other⟩ := List.mem_filter.mp hq
      refine ⟨fun same : saved item.1 = q.2.1 => ?_, fun same => apart _ hq (saved_injective same)⟩
      simp [same] at other

/-- The outcome on an extension class depends on the tables of its path. -/
theorem own_of_path (C : Heap.Created h₀ bases attrs h self) (plain : BoostPlain h₀)
    (hb : b ∈ bases) (extension : h.type b = boostMeta) {h' : Heap String V}
    (type : h'.type = h.type) (mro : h'.mro = h.mro) (tables : ∀ a ∈ h.path b, h'.own a = h.own a) :
    (metaclassInit self bases d ⟨h', []⟩).heap.own b =
      (metaclassInit self bases d ⟨h, []⟩).heap.own b := by
  obtain ⟨P, Q, split, before, after⟩ := passes_split_extension C plain hb extension
  have path : h'.path b = h.path b := by
    rw [Heap.path, Heap.path, type, mro]
  have same : passes h' self bases d = passes h self bases d := by
    rw [passes, passes, type]
  have untouched : ∀ (g : Heap String V), ∀ a ∈ h.path b,
      (injectAll ⟨g, []⟩ P).heap.own a = g.own a := fun g a ha =>
    funext fun j => injectAll_frame fun p hp at_a => absurd (at_a ▸ ha) (before p hp)
  have rest : ∀ s : Progress V, (injectAll s Q).heap.own b = s.heap.own b := fun s =>
    funext fun j => injectAll_frame fun p hp at_b => absurd at_b.symm (after p hp)
  rw [metaclassInit_eq, metaclassInit_eq, same, split, injectAll_append, injectAll_append,
    injectAll_append, injectAll_append, rest, rest]
  refine injectAll_congr (b := b) (fun p hp => ?_) ?_ (fun a ha => ?_) b ?_
  · obtain ⟨item, -, rfl⟩ := List.mem_map.mp hp
    rfl
  · rw [injectAll_path, injectAll_path, path]
  · rw [injectAll_path] at ha
    rw [untouched h' a ha, untouched h a ha, tables a ha]
  · rw [injectAll_path]
    exact List.mem_append_left _ (h.mem_mro (exists_old C hb))

/-- **When only the targets change**, in whatever order the dictionary gives its items: when the
marker has every item already. -/
theorem only_targets_iff (created : h₀.typeNew metatype bases d.table = some (h, self))
    (plain : BoostPlain h₀) :
    (∀ d' : Dict V, d'.items.Perm d.items → ChangesOnlyTargets h self bases d') ↔
      SparesOthers h bases d ∧ ChainsThere h bases d := by
  have C := Heap.typeNew_cases created
  have names : ∀ d' : Dict V, d'.items.Perm d.items → ∀ n, n ∈ d'.names ↔ n ∈ d.names :=
    fun _ perm n => (perm.map Prod.fst).mem_iff
  constructor
  · intro all
    refine ⟨spares_of_unchanged C fun d' perm b _ other => ?_,
      fun b hb extension k hk there n leads last => ?_⟩
    · exact Classical.byContradiction fun changed => other ((all d' perm).only b changed).2
    · let le : String × V → String × V → Bool := fun i j => i.1.length ≤ j.1.length
      have perm : (d.items.mergeSort le).Perm d.items := List.mergeSort_perm _ _
      let d' : Dict V := ⟨_, (perm.map Prod.fst).nodup_iff.mpr d.nodup⟩
      have sorted : d'.items.Pairwise fun i j => i.1.length ≤ j.1.length :=
        (@List.pairwise_mergeSort _ le (by simp [le]; omega) (by simp [le]; omega) _).imp
          (by simp [le])
      have same : d'.Leads = d.Leads := by
        unfold Dict.Leads
        simp only [names d' perm]
      have name : n ∈ d'.names := (names d' perm n).mpr (leads.mem hk)
      obtain ⟨item, hitem, rfl⟩ := List.mem_map.mp name
      obtain ⟨I₁, I₂, split⟩ := List.append_of_mem hitem
      have found := leads_found sorted (exists_old C hb) ((names d' perm k).mpr hk) there
        (same ▸ leads) I₁ item.2 I₂ split
      have kept := (written_extension C plain hb extension).mpr
        ⟨I₁, item, I₂, split, .inr ⟨rfl, found⟩⟩
      rcases ((all d' perm).writes b hb extension _).mp kept with again | ⟨k', -, there', eq⟩
      · exact absurd ((names d' perm _).mp again) last
      · exact saved_injective eq ▸ there'
  · rintro ⟨spares, chains⟩ d' perm
    have spares' : SparesOthers h bases d' := fun b hb other notType item hitem =>
      spares b hb other notType item (perm.mem_iff.mp hitem)
    have chains' : ChainsThere h bases d' := by
      unfold ChainsThere Dict.Leads at chains ⊢
      simpa only [names d' perm] using chains
    exact {
      only := fun c changed => Classical.byContradiction fun apart =>
        changed (spared_own C spares' apart)
      writes := fun b hb extension n => written_iff C plain chains' hb extension n
      independent := fun b hb extension h' type mro tables =>
        own_of_path C plain hb extension type mro tables }

end Statement

/-! ### The marker is a target -/

/-- `type`, `object`, the two metaclasses, an extension class and `_injector`. -/
def loadedClasses {V : Type} (own : ClassId → String → Option V) : Heap String V where
  next := 6
  type c := [0, 0, 0, 0, 2, 3].getD c 0
  mro c := [[0, 1], [1], [2, 0, 1], [3, 2, 0, 1], [4, 1], [5, 1]].getD c []
  own := own
  type_bound := by decide
  bound := by decide
  head := by decide
  root := by decide
  nodup := by decide
  closed := by decide
  mono := by decide
  type_object := rfl

theorem loadedClasses_plain {V : Type} (own : ClassId → String → Option V) :
    BoostPlain (loadedClasses own) := by
  have plain : ∀ m ∈ [2, 0, 1], [0, 0, 0, 0, 2, 3].getD m 0 = 0 := by decide
  exact plain

/-- The dictionary of `_Coord`, with one method. -/
def forwardDict : Dict ℕ := ⟨[("forward", 1)], by decide⟩

/-- `class _Coord(Coord,_injector)` can be created. -/
theorem coord_created : ∃ h, (loadedClasses fun _ _ => (none : Option ℕ)).typeNew boostMeta [4, 5]
    forwardDict.table = some (h, 6) := by
  have created : ((loadedClasses fun _ _ => (none : Option ℕ)).typeNew boostMeta [4, 5]
      forwardDict.table).map Prod.snd = some 6 := by decide
  obtain ⟨⟨h, cls⟩, created, rfl⟩ := Option.map_eq_some_iff.mp created
  exact ⟨h, created⟩

/-- `class _Coord(Coord,_injector)` gives the marker the method of `_Coord`. -/
theorem coord_writes_marker : ∃ h, (loadedClasses fun _ _ => (none : Option ℕ)).typeNew boostMeta
      [4, 5] forwardDict.table = some (h, 6) ∧
    BoostPlain (loadedClasses fun _ _ => (none : Option ℕ)) ∧
    h.type 4 = boostMeta ∧ h.type 5 ≠ boostMeta ∧ h.own 5 "forward" = none ∧
    (metaclassInit 6 [4, 5] forwardDict ⟨h, []⟩).heap.own 5 "forward" = some 1 ∧
    ¬ ChangesOnlyTargets h 6 [4, 5] forwardDict := by
  obtain ⟨h, created⟩ := coord_created
  have C := Heap.typeNew_cases created
  have coord : h.type 4 = 2 := C.type 4 (by decide)
  have marker : h.type 5 = 3 := C.type 5 (by decide)
  have before : h.own 5 "forward" = none := congrFun (C.own 5 (by decide)) "forward"
  have both : passes h 6 [4, 5] forwardDict = [(4, ("forward", 1)), (5, ("forward", 1))] := by
    simp [passes, coord, marker, forwardDict, pyType]
  have after : (metaclassInit 6 [4, 5] forwardDict ⟨h, []⟩).heap.own 5 "forward" = some 1 := by
    have last : (injectAll ⟨h, []⟩ ([(4, ("forward", 1))] ++ [(5, ("forward", 1))])).heap.own 5
        "forward" = some 1 := injectAll_own_name (p := (5, ("forward", 1))) (by simp)
    rw [metaclassInit_eq, both]
    exact last
  refine ⟨h, created, loadedClasses_plain _, coord, by rw [marker]; decide, before, after,
    fun only => ?_⟩
  have boost := (only.only 5 fun same => by simp [same, before] at after).2
  rw [marker] at boost
  exact absurd boost (by decide)

/-- The theorem for `_Coord`: the marker would have to have the method already. -/
theorem only_targets_coord : ∃ h, (loadedClasses fun _ _ => (none : Option ℕ)).typeNew boostMeta
      [4, 5] forwardDict.table = some (h, 6) ∧
    ((∀ d' : Dict ℕ, d'.items.Perm forwardDict.items → ChangesOnlyTargets h 6 [4, 5] d') ↔
      SparesOthers h [4, 5] forwardDict ∧ ChainsThere h [4, 5] forwardDict) := by
  obtain ⟨h, created⟩ := coord_created
  exact ⟨h, created, only_targets_iff created (loadedClasses_plain _)⟩

end MapnikPackaging.Bindings
