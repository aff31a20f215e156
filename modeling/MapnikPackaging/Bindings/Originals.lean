/-
What an extension class had before its methods were replaced.

A statement that injects a name keeps what stood there under `_c_`, and the wrappers of the module
call through it. A second statement for the same class and name, as when the module body is
executed again in the same process, finds the first wrapper there and keeps that one instead.

* `latest_kept` — an extension class has the value injected last, in every run.
* `original_iff` — one statement keeps the originals exactly when nothing it replaces is itself an
  injected value over another original.
* `originals_kept_iff` — over whole runs.
-/

import MapnikPackaging.Bindings.Injector
import MapnikPackaging.Shell.Runs
import Mathlib.Data.List.Infix

namespace MapnikPackaging.Bindings

open Python Runs

/-- A dictionary without a name that begins with `_c_`. -/
structure PlainDict (V : Type) extends Dict V where
  unprefixed : ∀ k ∈ toDict.names, ¬ "_c_".toList <+: k.toList

/-- The classes, the passes made so far and the injecting metaclasses. -/
structure Interpreter (V : Type) extends Progress V where
  injecting : List ClassId

/-- What an execution of the module body does to the classes. -/
inductive Step (V : Type) where
  /-- `class _MapnikMetaclass(BoostPythonMetaclass)` -/
  | metaclass (attrs : String → Option V)
  /-- a class statement, or a call of a metaclass such as the one that makes `_injector` -/
  | statement (metatype : ClassId) (bases : List ClassId) (d : PlainDict V)

section Model

variable {V : Type}

/-- What the class statement defines. -/
def Step.items : Step V → List (String × V)
  | .metaclass _ => []
  | .statement _ _ d => d.items

/-- The new class gets its `__init__` from an injecting metaclass. -/
def Interpreter.Injects (s : Interpreter V) (h : Heap String V) (cls : ClassId) : Prop :=
  ∃ m ∈ s.injecting, m ∈ h.mro (h.type cls)

instance (s : Interpreter V) (h : Heap String V) (cls : ClassId) : Decidable (s.Injects h cls) :=
  inferInstanceAs (Decidable (∃ m ∈ s.injecting, m ∈ h.mro (h.type cls)))

/-- One step; a statement whose bases do not go together raises, and nothing is changed. -/
def step (s : Interpreter V) : Step V → Interpreter V
  | .metaclass attrs =>
    match s.heap.typeNew pyType [boostMeta] attrs with
    | some (h, cls) => ⟨⟨h, s.log⟩, cls :: s.injecting⟩
    | none => s
  | .statement metatype bases d =>
    match s.heap.typeNew metatype bases d.table with
    | some (h, cls) =>
      if s.Injects h cls then ⟨metaclassInit cls bases d.toDict ⟨h, s.log⟩, s.injecting⟩
      else ⟨⟨h, s.log⟩, s.injecting⟩
    | none => s

/-- The pass is one that injects `k` into `b`. -/
def At (b : ClassId) (k : String) (e : Injection V) : Bool :=
  e.target = b ∧ e.name = k

/-- What the first injection of `k` into `b` found. -/
def firstFound (log : List (Injection V)) (b : ClassId) (k : String) : Option (Option V) :=
  (log.find? (At b k)).map (·.found)

/-- The value last injected under `k` into `b`. -/
def lastValue (log : List (Injection V)) (b : ClassId) (k : String) : Option V :=
  (log.reverse.find? (At b k)).map (·.value)

/-- The function a wrapper calls: `through f` is the class and the name it looks up. -/
def callee (through : V → Option (ClassId × String)) (s : Interpreter V) (f : V) : Option V :=
  (through f).bind fun at_ => s.heap.getattr at_.1 (saved at_.2)

/-- **The originals stay reachable.** -/
structure OriginalsKept (through : V → Option (ClassId × String)) (s : Interpreter V) : Prop where
  /-- a name has the value injected last -/
  latest : ∀ b k v, s.heap.type b = boostMeta → lastValue s.log b k = some v →
    s.heap.getattr b k = some v
  /-- what the first injection found is kept -/
  original : ∀ b k x, s.heap.type b = boostMeta → firstFound s.log b k = some (some x) →
    s.heap.getattr b (saved k) = some x
  /-- a wrapper of an extension method calls that method and not itself -/
  reached : ∀ b k x f, s.heap.type b = boostMeta → firstFound s.log b k = some (some x) →
    through x = none → through f = some (b, k) →
    callee through s f = some x ∧ callee through s f ≠ some f

/-- The step injects `k` into `b`. -/
def Interpreter.Targets (s : Interpreter V) (b : ClassId) (k : String) : Step V → Prop
  | .metaclass _ => False
  | .statement metatype bases d => b ∈ bases ∧ k ∈ d.names ∧
    ∃ h cls, s.heap.typeNew metatype bases d.table = some (h, cls) ∧ s.Injects h cls

/-- The step replaces no injected value over another original. -/
def ReplacesOriginals (s : Interpreter V) (a : Step V) : Prop :=
  ∀ b k x, s.heap.type b = boostMeta → s.Targets b k a →
    firstFound s.log b k = some (some x) → lastValue s.log b k = some x

end Model

section Log

variable {V : Type} {log new : List (Injection V)} {e : Injection V} {b : ClassId} {k : String}

theorem at_iff : At b k e = true ↔ e.target = b ∧ e.name = k := decide_eq_true_iff

theorem find?_of_unique {l : List (Injection V)} (he : e ∈ l) (here : At b k e = true)
    (unique : ∀ e' ∈ l, At b k e' = true → e' = e) : l.find? (At b k) = some e := by
  obtain ⟨e', found⟩ := Option.isSome_iff_exists.mp (List.find?_isSome.mpr ⟨e, he, here⟩)
  rw [found, unique e' (List.mem_of_find?_eq_some found) (List.find?_some found)]

theorem firstFound_append : firstFound (log ++ new) b k =
    (firstFound log b k).or (firstFound new b k) := by
  unfold firstFound
  rw [List.find?_append, Option.map_or]

theorem lastValue_append : lastValue (log ++ new) b k =
    (lastValue new b k).or (lastValue log b k) := by
  unfold lastValue
  rw [List.reverse_append, List.find?_append, Option.map_or]

theorem firstFound_none (absent : ∀ e ∈ log, At b k e = false) : firstFound log b k = none := by
  unfold firstFound
  rw [List.find?_eq_none.mpr (by simpa using absent)]
  rfl

theorem lastValue_none (absent : ∀ e ∈ log, At b k e = false) : lastValue log b k = none := by
  unfold lastValue
  rw [List.find?_eq_none.mpr (by simpa using absent)]
  rfl

theorem mem_of_lastValue {v : V} (last : lastValue log b k = some v) :
    ∃ e ∈ log, e.target = b ∧ e.name = k := by
  obtain ⟨e, found, -⟩ := Option.map_eq_some_iff.mp last
  exact ⟨e, List.mem_reverse.mp (List.mem_of_find?_eq_some found),
    at_iff.mp (List.find?_some found)⟩

theorem mem_of_firstFound {x : Option V} (found : firstFound log b k = some x) :
    ∃ e ∈ log, e.target = b ∧ e.name = k := by
  obtain ⟨e, found, -⟩ := Option.map_eq_some_iff.mp found
  exact ⟨e, List.mem_of_find?_eq_some found, at_iff.mp (List.find?_some found)⟩

/-- What was injected has a value. -/
theorem lastValue_isSome (he : e ∈ log) (here : At b k e = true) :
    ∃ v, lastValue log b k = some v := by
  have found : (log.reverse.find? (At b k)).isSome :=
    List.find?_isSome.mpr ⟨e, List.mem_reverse.mpr he, here⟩
  obtain ⟨e', found⟩ := Option.isSome_iff_exists.mp found
  exact ⟨e'.value, by rw [lastValue, found]; rfl⟩

end Log

/-! ### One class statement -/

section Statement

variable {V : Type} {h₀ h : Heap String V} {cls b : ClassId} {bases : List ClassId}
  {attrs : String → Option V} {d : PlainDict V} {k : String} {v : V} {log : List (Injection V)}

theorem PlainDict.ne_saved (d : PlainDict V) (hk : k ∈ d.names) (j : String) : k ≠ saved j := by
  rintro rfl
  exact d.unprefixed _ hk ⟨j.toList, by rw [saved, String.toList_append]⟩

theorem mem_passes_of (C : Heap.Created h₀ bases attrs h cls) (hb : b ∈ bases)
    (extension : h.type b = boostMeta) {item : String × V} (hitem : item ∈ d.items) :
    (b, item) ∈ passes h cls bases d.toDict := by
  refine List.mem_flatMap.mpr ⟨b, List.mem_filter.mpr ⟨hb, ?_⟩, List.mem_map_of_mem hitem⟩
  have guard : boostMeta ≠ cls := extension ▸ type_ne_self C hb
  simp only [extension, List.mem_cons, List.not_mem_nil, or_false, not_or, decide_eq_true_eq]
  exact ⟨guard, by decide⟩

/-- A pass on an extension class finds what was there before the statement. -/
theorem found_before (C : Heap.Created h₀ bases attrs h cls) (plain : BoostPlain h₀)
    {L₁ L₂ : List (ClassId × String × V)} {p : ClassId × String × V}
    (split : passes h cls bases d.toDict = L₁ ++ p :: L₂) (extension : h.type p.1 = boostMeta) :
    (injectAll ⟨h, []⟩ L₁).heap.getattr p.1 p.2.1 = h.getattr p.1 p.2.1 := by
  have apart := passes_pairwise (d := d.toDict) C plain
  rw [split] at apart
  have hp : p ∈ passes h cls bases d.toDict := by simp [split]
  have name : p.2.1 ∈ d.names := List.mem_map_of_mem (mem_passes hp).2.2
  apply injectAll_getattr
  intro q hq on_path
  obtain ⟨names, path⟩ := (List.pairwise_append.mp apart).2.2 q hq p (by simp)
  exact ⟨(names (path extension on_path)).symm, d.ne_saved name _⟩

/-- **What a statement leaves** of a class and a name it injects. -/
theorem metaclassInit_target (C : Heap.Created h₀ bases attrs h cls) (plain : BoostPlain h₀)
    (hb : b ∈ bases) (extension : h.type b = boostMeta) (hk : k ∈ d.names) :
    ∃ v, (k, v) ∈ d.items ∧
      (metaclassInit cls bases d.toDict ⟨h, log⟩).heap.own b k = some v ∧
      lastValue (metaclassInit cls bases d.toDict ⟨h, log⟩).log b k = some v ∧
      firstFound (metaclassInit cls bases d.toDict ⟨h, log⟩).log b k =
        (firstFound log b k).or (some (h.getattr b k)) ∧
      ∀ x, h.getattr b k = some x →
        (metaclassInit cls bases d.toDict ⟨h, log⟩).heap.own b (saved k) = some x := by
  obtain ⟨⟨k, v⟩, hitem, rfl⟩ := List.mem_map.mp hk
  obtain ⟨L₁, L₂, split⟩ := List.append_of_mem (mem_passes_of C hb extension hitem)
  have found := found_before C plain split extension
  have apart := passes_pairwise (d := d.toDict) C plain
  rw [split] at apart
  have later : ∀ q ∈ L₂, b = q.1 → k ≠ q.2.1 ∧ k ≠ saved q.2.1 ∧ saved k ≠ q.2.1 := by
    intro q hq same
    have hq' : q ∈ passes h cls bases d.toDict := by simp [split, hq]
    have name : q.2.1 ∈ d.names := List.mem_map_of_mem (mem_passes hq').2.2
    have order := (List.pairwise_cons.mp (List.pairwise_append.mp apart).2.1).1 q hq
    exact ⟨order.1 same, d.ne_saved hk _, (d.ne_saved name _).symm⟩
  let new := (injectAll ⟨h, []⟩ (passes h cls bases d.toDict)).log
  have entry : (⟨b, k, h.getattr b k, v⟩ : Injection V) ∈ new :=
    mem_injectAll_log.mpr (.inr ⟨L₁, (b, (k, v)), L₂, split, by rw [found]⟩)
  have unique : ∀ e ∈ new, At b k e = true → e = ⟨b, k, h.getattr b k, v⟩ := by
    intro e he here
    rcases mem_injectAll_log.mp he with old | ⟨L₁', ⟨b', k', v'⟩, L₂', split', rfl⟩
    · cases old
    obtain ⟨rfl, rfl⟩ := at_iff.mp here
    have hp' : (b', (k', v')) ∈ passes h cls bases d.toDict := by simp [split']
    have hitem' : (k', v') ∈ d.items := (mem_passes hp').2.2
    obtain rfl : v' = v := congrArg Prod.snd (List.inj_on_of_nodup_map d.nodup hitem' hitem rfl)
    rw [found_before C plain split' extension]
  have here : At b k ⟨b, k, h.getattr b k, v⟩ = true := at_iff.mpr ⟨rfl, rfl⟩
  rw [metaclassInit_eq, injectAll_log]
  refine ⟨v, hitem, ?_, ?_, ?_, fun x hx => ?_⟩
  · rw [split]
    exact injectAll_own_name (p := (b, (k, v))) fun q hq same =>
      ⟨(later q hq same).1, (later q hq same).2.1⟩
  · rw [lastValue_append, lastValue, find?_of_unique (List.mem_reverse.mpr entry) here
      fun e he => unique e (List.mem_reverse.mp he)]
    rfl
  · rw [firstFound_append, firstFound, firstFound, find?_of_unique entry here unique]
    rfl
  · rw [split]
    exact injectAll_own_saved (p := (b, (k, v))) (found.trans hx) fun q hq same =>
      ⟨(later q hq same).2.2, fun eq => (later q hq same).1 (saved_injective eq)⟩

/-- What a statement leaves of the other classes and names. -/
theorem metaclassInit_other (cls : ClassId) (h : Heap String V) (log : List (Injection V))
    (apart : ¬(b ∈ bases ∧ k ∈ d.names)) (unprefixed : ∀ j, k ≠ saved j) :
    (metaclassInit cls bases d.toDict ⟨h, log⟩).heap.own b k = h.own b k ∧
      (metaclassInit cls bases d.toDict ⟨h, log⟩).heap.own b (saved k) = h.own b (saved k) ∧
      lastValue (metaclassInit cls bases d.toDict ⟨h, log⟩).log b k = lastValue log b k ∧
      firstFound (metaclassInit cls bases d.toDict ⟨h, log⟩).log b k = firstFound log b k := by
  have off : ∀ p ∈ passes h cls bases d.toDict, b = p.1 → k ≠ p.2.1 := by
    intro p hp same name
    obtain ⟨hb, -, hitem⟩ := mem_passes hp
    exact apart ⟨same ▸ hb, name ▸ List.mem_map_of_mem hitem⟩
  have none : ∀ e ∈ (injectAll ⟨h, []⟩ (passes h cls bases d.toDict)).log, At b k e = false := by
    intro e he
    rcases mem_injectAll_log.mp he with old | ⟨L₁, p, L₂, split, rfl⟩
    · cases old
    · have hp : p ∈ passes h cls bases d.toDict := by simp [split]
      exact Bool.eq_false_iff.mpr fun here =>
        off p hp (at_iff.mp here).1.symm (at_iff.mp here).2.symm
  rw [metaclassInit_eq, injectAll_log]
  refine ⟨?_, ?_, ?_, ?_⟩
  · exact injectAll_frame fun p hp same => ⟨off p hp same, unprefixed _⟩
  · refine injectAll_frame fun p hp same => ⟨?_, fun eq => off p hp same (saved_injective eq)⟩
    exact (d.ne_saved (List.mem_map_of_mem (mem_passes hp).2.2) k).symm
  · rw [lastValue_append, lastValue_none none, Option.none_or]
  · rw [firstFound_append, firstFound_none none, Option.or_none]

end Statement

/-! ### Runs -/

/-- What every step keeps. -/
structure Sound {V : Type} (s : Interpreter V) : Prop where
  plain : BoostPlain s.heap
  boost : boostMeta < s.heap.next
  exist : ∀ e ∈ s.log, e.target < s.heap.next
  unprefixed : ∀ e ∈ s.log, ∀ j, e.name ≠ saved j
  latest : ∀ b k v, s.heap.type b = boostMeta → lastValue s.log b k = some v →
    s.heap.own b k = some v
  kept : ∀ b k x, s.heap.type b = boostMeta → firstFound s.log b k = some (some x) →
    (s.heap.own b (saved k)).isSome

section Runs

variable {V : Type} {s : Interpreter V} {a : Step V} {b : ClassId} {k : String} {v : V}
  {through : V → Option (ClassId × String)}

/-- The classes that exist stay what they are. -/
theorem step_classes (s : Interpreter V) (a : Step V) : s.heap.next ≤ (step s a).heap.next ∧
    ∀ c < s.heap.next, (step s a).heap.type c = s.heap.type c ∧
      (step s a).heap.mro c = s.heap.mro c := by
  have grown : ∀ {metatype : ClassId} {bases : List ClassId} {attrs : String → Option V}
      {h : Heap String V} {cls : ClassId}, s.heap.typeNew metatype bases attrs = some (h, cls) →
      s.heap.next ≤ h.next ∧ ∀ c < s.heap.next, h.type c = s.heap.type c ∧
        h.mro c = s.heap.mro c := by
    intro metatype bases attrs h cls created
    have C := Heap.typeNew_cases created
    exact ⟨C.next ▸ Nat.le_succ _, fun c hc => ⟨C.type c hc, C.mro c hc⟩⟩
  have same : s.heap.next ≤ s.heap.next ∧ ∀ c < s.heap.next, s.heap.type c = s.heap.type c ∧
      s.heap.mro c = s.heap.mro c := ⟨Nat.le_refl _, fun c _ => ⟨rfl, rfl⟩⟩
  cases a with
  | metaclass attrs =>
    simp only [step]
    split
    · exact grown ‹_›
    · exact same
  | statement metatype bases d =>
    simp only [step]
    split
    · split
      · rw [metaclassInit_eq, injectAll_next, injectAll_type, injectAll_mro]
        exact grown ‹_›
      · exact grown ‹_›
    · exact same

theorem step_injecting {m : ClassId} (a : Step V) (hm : m ∈ s.injecting) :
    m ∈ (step s a).injecting := by
  cases a with
  | metaclass attrs =>
    simp only [step]
    split
    · exact List.mem_cons_of_mem _ hm
    · exact hm
  | statement metatype bases d =>
    simp only [step]
    split
    · split <;> exact hm
    · exact hm

/-- What a step leaves of an extension class and a name it injects. -/
theorem step_target (plain : BoostPlain s.heap) (hb : b < s.heap.next)
    (extension : s.heap.type b = boostMeta) (target : s.Targets b k a) :
    ∃ v, (k, v) ∈ a.items ∧ (step s a).heap.own b k = some v ∧
      lastValue (step s a).log b k = some v ∧
      firstFound (step s a).log b k = (firstFound s.log b k).or (some (s.heap.getattr b k)) ∧
      ∀ x, s.heap.getattr b k = some x → (step s a).heap.own b (saved k) = some x := by
  cases a with
  | metaclass attrs => exact target.elim
  | statement metatype bases d =>
    obtain ⟨hbase, hk, h, cls, created, injects⟩ := target
    have C := Heap.typeNew_cases created
    simp only [step, created, if_pos injects]
    rw [← C.getattr hb]
    exact metaclassInit_target C plain hbase ((C.type b hb).trans extension) hk

/-- What it leaves of the other classes and names. -/
theorem step_other (hb : b < s.heap.next) (unprefixed : ∀ j, k ≠ saved j)
    (other : ¬ s.Targets b k a) : (step s a).heap.own b k = s.heap.own b k ∧
      (step s a).heap.own b (saved k) = s.heap.own b (saved k) ∧
      lastValue (step s a).log b k = lastValue s.log b k ∧
      firstFound (step s a).log b k = firstFound s.log b k := by
  cases a with
  | metaclass attrs =>
    simp only [step]
    split
    · rename_i h cls created
      have C := Heap.typeNew_cases created
      exact ⟨congrFun (C.own b hb) k, congrFun (C.own b hb) (saved k), rfl, rfl⟩
    · exact ⟨rfl, rfl, rfl, rfl⟩
  | statement metatype bases d =>
    simp only [step]
    split
    · rename_i h cls created
      have C := Heap.typeNew_cases created
      split
      · rename_i injects
        obtain ⟨name, kept, last, first⟩ := metaclassInit_other cls h s.log
          (fun target => other ⟨target.1, target.2, h, cls, created, injects⟩) unprefixed
        exact ⟨name.trans (congrFun (C.own b hb) k), kept.trans (congrFun (C.own b hb) (saved k)),
          last, first⟩
      · exact ⟨congrFun (C.own b hb) k, congrFun (C.own b hb) (saved k), rfl, rfl⟩
    · exact ⟨rfl, rfl, rfl, rfl⟩

theorem step_plain (plain : BoostPlain s.heap) (boost : boostMeta < s.heap.next) (a : Step V) :
    BoostPlain (step s a).heap := by
  obtain ⟨-, classes⟩ := step_classes s a
  intro m hm
  rw [(classes _ boost).2] at hm
  rw [(classes m (s.heap.bound _ boost m hm)).1]
  exact plain m hm

/-- What is injected into exists, and no name has the prefix. -/
theorem step_log (I : Sound s) (a : Step V) : ∀ e ∈ (step s a).log,
    e.target < s.heap.next ∧ ∀ j, e.name ≠ saved j := by
  have old : ∀ e ∈ s.log, e.target < s.heap.next ∧ ∀ j, e.name ≠ saved j :=
    fun e he => ⟨I.exist e he, I.unprefixed e he⟩
  cases a with
  | metaclass attrs =>
    simp only [step]
    split <;> exact old
  | statement metatype bases d =>
    simp only [step]
    split
    · rename_i h cls created
      split
      · intro e he
        rw [metaclassInit_eq] at he
        rcases mem_injectAll_log.mp he with he | ⟨L₁, p, L₂, split, rfl⟩
        · exact old e he
        · have hp : p ∈ passes h cls bases d.toDict := by
            rw [split]
            exact List.mem_append_right _ List.mem_cons_self
          obtain ⟨hb, -, hitem⟩ := mem_passes hp
          exact ⟨(Heap.typeNew_cases created).exist _ hb, d.ne_saved (List.mem_map_of_mem hitem)⟩
      · exact old
    · exact old

/-- **Step lemma.** -/
theorem Sound.step (I : Sound s) (a : Step V) : Sound (step s a) := by
  obtain ⟨next, classes⟩ := step_classes s a
  have log := step_log I a
  have old : ∀ {b k}, (∃ e ∈ (Bindings.step s a).log, e.target = b ∧ e.name = k) →
      (Bindings.step s a).heap.type b = boostMeta →
      b < s.heap.next ∧ s.heap.type b = boostMeta ∧ ∀ j, k ≠ saved j := by
    rintro b k ⟨e, he, rfl, rfl⟩ extension
    obtain ⟨hb, unprefixed⟩ := log e he
    exact ⟨hb, (classes _ hb).1 ▸ extension, unprefixed⟩
  refine ⟨?_, Nat.lt_of_lt_of_le I.boost next, fun e he => Nat.lt_of_lt_of_le (log e he).1 next,
    fun e he => (log e he).2, fun b k v extension last => ?_, fun b k x extension first => ?_⟩
  · exact step_plain I.plain I.boost a
  · obtain ⟨hb, extension, unprefixed⟩ := old (mem_of_lastValue last) extension
    by_cases target : s.Targets b k a
    · obtain ⟨w, -, own, last', -, -⟩ := step_target I.plain hb extension target
      rw [own, ← last', last]
    · obtain ⟨own, -, last', -⟩ := step_other hb unprefixed target
      rw [own]
      exact I.latest b k v extension (last' ▸ last)
  · obtain ⟨hb, extension, unprefixed⟩ := old (mem_of_firstFound first) extension
    by_cases target : s.Targets b k a
    · obtain ⟨w, -, -, -, first', kept⟩ := step_target I.plain hb extension target
      have there : ∃ y, s.heap.getattr b k = some y := by
        rw [first'] at first
        cases before : firstFound s.log b k with
        | none =>
          rw [before] at first
          exact ⟨x, Option.some.inj first⟩
        | some found =>
          obtain ⟨e, he, rfl, rfl⟩ := mem_of_firstFound before
          obtain ⟨v, last⟩ := lastValue_isSome he (at_iff.mpr ⟨rfl, rfl⟩)
          exact ⟨v, Heap.getattr_of_own hb (I.latest _ _ v extension last)⟩
      obtain ⟨y, hy⟩ := there
      rw [kept y hy]
      rfl
    · obtain ⟨-, own, -, first'⟩ := step_other hb unprefixed target
      rw [own]
      exact I.kept b k x extension (first' ▸ first)

theorem exists_of_firstFound (I : Sound s) {x : Option V} (first : firstFound s.log b k = some x) :
    b < s.heap.next ∧ ∀ j, k ≠ saved j := by
  obtain ⟨e, he, rfl, rfl⟩ := mem_of_firstFound first
  exact ⟨I.exist e he, I.unprefixed e he⟩

/-- The value injected last is there in any case. -/
theorem latest_kept (I : Sound s) (extension : s.heap.type b = boostMeta)
    (last : lastValue s.log b k = some v) : s.heap.getattr b k = some v := by
  obtain ⟨e, he, rfl, rfl⟩ := mem_of_lastValue last
  exact Heap.getattr_of_own (I.exist e he) (I.latest _ _ v extension last)

/-- So everything rests on what the class itself keeps under `_c_`. -/
theorem originalsKept_iff (I : Sound s) : OriginalsKept through s ↔
    ∀ b k x, s.heap.type b = boostMeta → firstFound s.log b k = some (some x) →
      s.heap.own b (saved k) = some x := by
  have own : ∀ {b k x}, s.heap.type b = boostMeta → firstFound s.log b k = some (some x) →
      s.heap.getattr b (saved k) = s.heap.own b (saved k) := by
    intro b k x extension first
    obtain ⟨y, hy⟩ := Option.isSome_iff_exists.mp (I.kept b k x extension first)
    rw [hy, Heap.getattr_of_own (exists_of_firstFound I first).1 hy]
  constructor
  · intro kept b k x extension first
    rw [← own extension first]
    exact kept.original b k x extension first
  · intro kept
    refine ⟨fun b k v extension last => latest_kept I extension last,
      fun b k x extension first => ?_, fun b k x f extension first method wrapper => ?_⟩
    · rw [own extension first]
      exact kept b k x extension first
    · have called : callee through s f = some x := by
        rw [callee, wrapper, Option.bind_some, own extension first, kept b k x extension first]
      refine ⟨called, fun self => ?_⟩
      -- a wrapper that called itself would be the method
      rw [called] at self
      rw [Option.some.inj self, wrapper] at method
      cases method

/-- **One step** keeps the originals exactly when it replaces no injected value over another
original. -/
theorem original_iff (I : Sound s) (before : OriginalsKept through s) (a : Step V) :
    OriginalsKept through (step s a) ↔ ReplacesOriginals s a := by
  rw [originalsKept_iff (I.step a)]
  rw [originalsKept_iff I] at before
  constructor
  · intro after b k x extension target first
    obtain ⟨hb, unprefixed⟩ := exists_of_firstFound I first
    have extension' : (step s a).heap.type b = boostMeta :=
      ((step_classes s a).2 b hb).1.trans extension
    obtain ⟨w, -, -, -, first', kept⟩ := step_target I.plain hb extension target
    obtain ⟨e, he, rfl, rfl⟩ := mem_of_firstFound first
    obtain ⟨v, last⟩ := lastValue_isSome he (at_iff.mpr ⟨rfl, rfl⟩)
    have now := after _ _ x extension' (by rw [first', first]; rfl)
    rw [kept v (latest_kept I extension last)] at now
    rw [last, Option.some.inj now]
  · intro replaces b k x extension first
    obtain ⟨e, he, rfl, rfl⟩ := mem_of_firstFound first
    obtain ⟨hb, unprefixed⟩ := step_log I a e he
    rw [((step_classes s a).2 _ hb).1] at extension
    by_cases target : s.Targets e.target e.name a
    · obtain ⟨w, -, -, -, first', kept⟩ := step_target I.plain hb extension target
      rw [first'] at first
      cases earlier : firstFound s.log e.target e.name with
      | none =>
        rw [earlier] at first
        exact kept x (Option.some.inj first)
      | some found =>
        rw [earlier] at first
        obtain rfl : found = some x := Option.some.inj first
        exact kept x (latest_kept I extension (replaces _ _ x extension target earlier))
    · obtain ⟨-, own, -, first'⟩ := step_other hb unprefixed target
      rw [own]
      exact before _ _ x extension (first' ▸ first)

/-- **Over whole runs**: in every state of a run the originals are kept exactly when no step
replaces an injected value over another original. -/
theorem originals_kept_iff (through : V → Option (ClassId × String)) {s : Interpreter V}
    (plain : BoostPlain s.heap) (boost : boostMeta < s.heap.next) (fresh : s.log = [])
    (as : List (Step V)) :
    Always step (OriginalsKept through) s as ↔ Along step ReplacesOriginals s as := by
  have start : Sound s := by
    refine ⟨plain, boost, ?_, ?_, ?_, ?_⟩ <;> rw [fresh]
    · exact fun e he => absurd he List.not_mem_nil
    · exact fun e he => absurd he List.not_mem_nil
    · exact fun b k v _ last => nomatch last
    · exact fun b k x _ first => nomatch first
  refine always_iff_along (I := Sound) ((originalsKept_iff start).mpr ?_) start
    (fun s a I => I.step a) (fun s a I before => original_iff I before a)
  rw [fresh]
  exact fun b k x _ first => nomatch first

end Runs

/-! ### Executing the module body again -/

/-- What `Feature` can have under a name: the extension method, the wrapper of one execution, or
a property of the module, which calls nothing under `_c_`. -/
inductive Init where
  | extension
  | wrapper (execution : ℕ)
  | property (execution : ℕ)
  deriving DecidableEq

/-- `Feature._c___init__(self, id)`, where class 4 is `Feature`. -/
def Init.through : Init → Option (ClassId × String)
  | .extension => none
  | .wrapper _ => some (4, "__init__")
  | .property _ => none

/-- The extension module is loaded and the module body begins. -/
def loadedFeature : Interpreter Init :=
  ⟨⟨loadedClasses fun c k => if c = 4 ∧ k = "__init__" then some .extension else none, []⟩, [3]⟩

/-- `class _Feature(Feature, _injector)`, with the marker of that execution. -/
def featureStatement (marker : ClassId) (execution : ℕ) : Step Init :=
  .statement boostMeta [4, marker]
    ⟨⟨[("__init__", .wrapper execution)], by simp⟩, by simp [Dict.names]⟩

/-- The second execution defines the metaclass and the marker anew. -/
def executedTwice : List (Step Init) :=
  [featureStatement 5 1, .metaclass fun _ => none,
    .statement 7 [pyObject] ⟨⟨[], by simp⟩, by simp [Dict.names]⟩, featureStatement 8 2]

/-- After the second execution `Feature._c___init__` is the first wrapper, which calls itself. -/
theorem executed_twice : firstFound (final step loadedFeature executedTwice).log 4 "__init__" =
      some (some .extension) ∧
    (final step loadedFeature executedTwice).heap.getattr 4 (saved "__init__") =
      some (.wrapper 1) ∧
    callee Init.through (final step loadedFeature executedTwice) (.wrapper 1) =
      some (.wrapper 1) := by
  decide

/-- So the originals are not kept over two executions. -/
theorem executed_twice_lost :
    ¬ Always step (OriginalsKept Init.through) loadedFeature executedTwice := by
  intro always
  obtain ⟨first, found, -⟩ := executed_twice
  have kept := (always_iff.mp always executedTwice (List.prefix_refl _)).original 4 "__init__"
    .extension (by decide) first
  rw [found] at kept
  cases kept

/-- A class statement that injects the property `attributes` into `Feature`. -/
def attributesStatement (execution : ℕ) : Step Init :=
  .statement boostMeta [4, 5]
    ⟨⟨[("attributes", .property execution)], by simp⟩, by simp [Dict.names]⟩

/-- It replaces no original where `Feature` had no `attributes` at first. -/
theorem attributesStatement_replaces {s : Interpreter Init} {execution : ℕ}
    (nothing : ∀ x, firstFound s.log 4 "attributes" ≠ some (some x))
    (marker : s.heap.type 5 ≠ boostMeta) :
    ReplacesOriginals s (attributesStatement execution) := by
  rintro b k x extension ⟨target, name, -⟩ first
  obtain rfl : k = "attributes" := List.mem_singleton.mp name
  rcases List.mem_cons.mp target with rfl | target
  · exact absurd first (nothing x)
  · exact absurd (List.mem_singleton.mp target ▸ extension) marker

/-- `Feature` gets its wrapper, then a property and another one in its place: the wrapper
replaces an extension method, the properties replace no original. -/
theorem attributes_replaced : Always step (OriginalsKept Init.through) loadedFeature
    [featureStatement 5 1, attributesStatement 1, attributesStatement 2] := by
  apply (originals_kept_iff Init.through (loadedClasses_plain _) (by decide) rfl _).mpr
  have once : firstFound (final step loadedFeature [featureStatement 5 1]).log 4 "attributes" =
      none := by decide
  have twice : firstFound (final step loadedFeature
      [featureStatement 5 1, attributesStatement 1]).log 4 "attributes" = some none := by decide
  refine ⟨?_, ?_, ?_, trivial⟩
  · exact fun b k x _ _ first => nomatch first
  · exact attributesStatement_replaces (fun x found => nomatch once.symm.trans found) (by decide)
  · exact attributesStatement_replaces (fun x found => nomatch twice.symm.trans found) (by decide)

end MapnikPackaging.Bindings
