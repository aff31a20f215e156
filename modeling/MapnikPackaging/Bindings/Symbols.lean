/-
The symbol methods of the symbolizers.

`_add_symbol_method_to_symbolizers` goes through the module's names in the order of a dictionary
and injects `symbol` into every symbolizer class, by a class statement each. What the classes keep
under `_c_symbol` depends on the order, the symbol methods do not.

* `symbolStatement_targets` — the class statement succeeds, whatever the class derives from.
* `addSymbolMethods_own` — what each class has afterwards.
* `symbols_installed` — in every order the same methods, and nothing on the other classes.
-/

import MapnikPackaging.Bindings.Originals

namespace MapnikPackaging.Bindings

open Python

section Model

variable {V : Type}

/-- `name.endswith('Symbolizer') and not name.startswith('_')` -/
def isSymbolizer (name : String) : Bool :=
  "Symbolizer".toList.isSuffixOf name.toList && !"_".toList.isPrefixOf name.toList

/-- The method for the class of this name. -/
def symbolFor (symbol_for_cls symbol_for_subcls : V) (name : String) : V :=
  if name = "Symbolizer" then symbol_for_cls else symbol_for_subcls

/-- `type('dummy', (obj,_injector), {'symbol': symbol})` -/
def symbolStatement (injector obj : ClassId) (symbol : V) : Step V :=
  .statement pyType [obj, injector] ⟨⟨[("symbol", symbol)], by simp⟩, by simp [Dict.names]⟩

/-- `_add_symbol_method_to_symbolizers`, with the items of `vars` in their order. -/
def addSymbolMethods (symbol_for_cls symbol_for_subcls : V) (injector : ClassId)
    (vars : List (String × ClassId)) (s : Interpreter V) : Interpreter V :=
  vars.foldl (fun s item =>
    if isSymbolizer item.1 then
      step s (symbolStatement injector item.2 (symbolFor symbol_for_cls symbol_for_subcls item.1))
    else s) s

/-- `_injector` and its metaclass as the module makes them. -/
structure Marker (s : Interpreter V) (injector : ClassId) : Prop where
  exist : injector < s.heap.next
  mro : s.heap.mro injector = [injector, pyObject]
  injecting : s.heap.type injector ∈ s.injecting
  /-- `_MapnikMetaclass` derives from `BoostPythonMetaclass` -/
  derives : boostMeta ∈ s.heap.mro (s.heap.type injector)
  /-- and not the other way round -/
  apart : s.heap.type injector ∉ s.heap.mro boostMeta

/-- What the function finds: extension classes under the names, and the marker. -/
structure Ready (s : Interpreter V) (injector : ClassId) (vars : List (String × ClassId)) : Prop
    where
  plain : BoostPlain s.heap
  marker : Marker s injector
  classes : ∀ item ∈ vars, item.2 < s.heap.next ∧ s.heap.type item.2 = boostMeta

end Model

section Installing

variable {V : Type} {s : Interpreter V} {injector c obj : ClassId}
  {symbol_for_cls symbol_for_subcls : V} {vars vars' : List (String × ClassId)}
  {item : String × ClassId}

theorem Marker.boost (M : Marker s injector) : boostMeta < s.heap.next :=
  s.heap.bound _ (s.heap.type_bound _ M.exist) _ M.derives

/-- The marker stays what it is. -/
theorem Marker.step (M : Marker s injector) (a : Step V) : Marker (step s a) injector := by
  obtain ⟨next, classes⟩ := step_classes s a
  have metaclass := s.heap.type_bound _ M.exist
  refine ⟨Nat.lt_of_lt_of_le M.exist next, ?_, ?_, ?_, ?_⟩
  · rw [(classes _ M.exist).2, M.mro]
  · rw [(classes _ M.exist).1]
    exact step_injecting a M.injecting
  · rw [(classes _ M.exist).1, (classes _ metaclass).2]
    exact M.derives
  · rw [(classes _ M.exist).1, (classes _ M.boost).2]
    exact M.apart

/-- **The class statement succeeds** and injects into the extension class. -/
theorem symbolStatement_targets (M : Marker s injector) (hobj : obj < s.heap.next)
    (extension : s.heap.type obj = boostMeta) (symbol : V) :
    s.Targets obj "symbol" (symbolStatement injector obj symbol) := by
  have below : obj ≠ pyObject := by
    rintro rfl
    rw [s.heap.type_object] at extension
    exact absurd extension (by decide)
  have apart : injector ∉ s.heap.mro obj := fun ancestor =>
    M.apart (extension ▸ s.heap.mono obj hobj _ ancestor)
  have derives : s.heap.type obj ∈ s.heap.mro (s.heap.type injector) := extension ▸ M.derives
  obtain ⟨h, created⟩ := Heap.typeNew_root hobj M.exist below M.mro apart derives
    (Dict.table ⟨[("symbol", symbol)], by simp⟩)
  exact ⟨by simp, by simp [Dict.names], h, s.heap.next, created, _, M.injecting,
    (Heap.typeNew_cases created).derives injector (by simp)⟩

/-- **The module makes the marker**: its metaclass and then `_injector` itself. -/
theorem Marker.made (plain : BoostPlain s.heap) (boost : boostMeta < s.heap.next)
    (metaclass : pyType ∈ s.heap.mro boostMeta) (attrs : String → Option V) :
    Marker (Bindings.step (Bindings.step s (.metaclass attrs))
      (.statement s.heap.next [pyObject] ⟨⟨[], by simp⟩, by simp [Dict.names]⟩))
      (s.heap.next + 1) := by
  have type_lt := s.heap.bound _ boost _ metaclass
  have object_lt : pyObject < s.heap.next :=
    s.heap.bound _ boost _ (List.mem_of_getLast? (s.heap.root _ boost))
  have meta_type : s.heap.type boostMeta = pyType := plain _ (s.heap.mem_mro boost)
  have derives₁ : s.heap.type boostMeta ∈ s.heap.mro pyType :=
    meta_type.symm ▸ s.heap.mem_mro type_lt
  obtain ⟨h₁, created₁, type₁, mro₁⟩ := Heap.typeNew_single boost type_lt derives₁ attrs
  have C₁ := Heap.typeNew_cases created₁
  have object₁ : pyObject < h₁.next := C₁.next ▸ Nat.lt_succ_of_lt object_lt
  have derives₂ : h₁.type pyObject ∈ h₁.mro s.heap.next := by
    rw [h₁.type_object, mro₁]
    exact List.mem_cons_of_mem _ metaclass
  obtain ⟨h₂, created₂, type₂, mro₂⟩ := Heap.typeNew_single object₁
    (C₁.next ▸ Nat.lt_succ_self _) derives₂
    (Dict.table (V := V) ⟨[], by simp⟩)
  have C₂ := Heap.typeNew_cases created₂
  rw [C₁.next] at type₂ mro₂
  have parent : h₂.mro s.heap.next = s.heap.next :: s.heap.mro boostMeta := by
    rw [C₂.mro _ (C₁.next ▸ Nat.lt_succ_self _), mro₁]
  have made : ∀ t : Interpreter V, t.heap.next = h₂.next → t.heap.type = h₂.type →
      t.heap.mro = h₂.mro → t.injecting = s.heap.next :: s.injecting →
      Marker t (s.heap.next + 1) := by
    intro t next type mro injecting
    refine ⟨?_, ?_, ?_, ?_, ?_⟩
    · rw [next, C₂.next, C₁.next]
      exact Nat.lt_succ_self _
    · rw [mro, mro₂, h₁.mro_object object₁]
    · rw [type, type₂, injecting]
      exact List.mem_cons_self
    · rw [type, type₂, mro, parent]
      exact List.mem_cons_of_mem _ (s.heap.mem_mro boost)
    · rw [type, type₂, mro, C₂.mro _ (C₁.next ▸ Nat.lt_succ_of_lt boost), C₁.mro _ boost]
      exact fun new => Nat.lt_irrefl _ (s.heap.bound _ boost _ new)
  simp only [Bindings.step, created₁, created₂]
  split
  · refine made _ ?_ ?_ ?_ rfl <;> rw [metaclassInit_eq]
    · exact injectAll_next
    · exact injectAll_type
    · exact injectAll_mro
  · exact made _ rfl rfl rfl rfl

theorem Ready.step (R : Ready s injector vars) (a : Step V) : Ready (step s a) injector vars := by
  obtain ⟨next, classes⟩ := step_classes s a
  refine ⟨step_plain R.plain R.marker.boost a, R.marker.step a, fun item hitem => ?_⟩
  obtain ⟨exist, extension⟩ := R.classes item hitem
  exact ⟨Nat.lt_of_lt_of_le exist next, (classes _ exist).1.trans extension⟩

theorem symbol_unprefixed (j : String) : "symbol" ≠ saved j := by
  intro same
  have letters := congrArg String.toList same
  rw [saved, String.toList_append] at letters
  cases letters

theorem Ready.run (R : Ready s injector vars) (f g : V) (items : List (String × ClassId)) :
    Ready (addSymbolMethods f g injector items s) injector vars ∧
      s.heap.next ≤ (addSymbolMethods f g injector items s).heap.next := by
  induction items generalizing s with
  | nil => exact ⟨R, Nat.le_refl _⟩
  | cons item items ih =>
    rw [addSymbolMethods, List.foldl_cons]
    split
    · obtain ⟨ready, next⟩ := ih (R.step _)
      exact ⟨ready, Nat.le_trans (step_classes s _).1 next⟩
    · exact ih R

/-- The classes under other names have no new symbol. -/
theorem addSymbolMethods_other (exist : c < s.heap.next) (other : c ≠ injector)
    (names : ∀ item ∈ vars, isSymbolizer item.1 = true → item.2 ≠ c) :
    (addSymbolMethods symbol_for_cls symbol_for_subcls injector vars s).heap.own c "symbol" =
      s.heap.own c "symbol" := by
  induction vars generalizing s with
  | nil => rfl
  | cons item vars ih =>
    have rest := fun i hi => names i (List.mem_cons_of_mem _ hi)
    rw [addSymbolMethods, List.foldl_cons]
    split
    · rename_i symbolizer
      refine (ih (Nat.lt_of_lt_of_le exist (step_classes s _).1) rest).trans
        (step_other exist symbol_unprefixed ?_).1
      rintro ⟨base, -⟩
      rcases List.mem_cons.mp base with same | base
      · exact names item List.mem_cons_self symbolizer same.symm
      · exact other (List.mem_singleton.mp base)
    · exact ih exist rest

/-- An extension class is not the marker. -/
theorem Ready.ne_injector (R : Ready s injector vars) (hitem : item ∈ vars) :
    item.2 ≠ injector := by
  rintro rfl
  have self := s.heap.mem_mro R.marker.boost
  rw [← (R.classes item hitem).2] at self
  exact R.marker.apart ((R.classes item hitem).2 ▸ self)

/-- A symbolizer has its symbol method. -/
theorem addSymbolMethods_own (R : Ready s injector vars) (distinct : (vars.map Prod.snd).Nodup)
    (hitem : item ∈ vars) (symbolizer : isSymbolizer item.1 = true) :
    (addSymbolMethods symbol_for_cls symbol_for_subcls injector vars s).heap.own item.2 "symbol" =
      some (symbolFor symbol_for_cls symbol_for_subcls item.1) := by
  obtain ⟨X, Y, rfl⟩ := List.append_of_mem hitem
  obtain ⟨R', -⟩ := R.run symbol_for_cls symbol_for_subcls X
  obtain ⟨exist, extension⟩ := R'.classes item hitem
  have later : ∀ i ∈ Y, i.2 ≠ item.2 := by
    intro i hi same
    rw [List.map_append, List.map_cons] at distinct
    have nodup := (List.nodup_append.mp distinct).2.1
    exact (List.nodup_cons.mp nodup).1 (same ▸ List.mem_map_of_mem hi)
  obtain ⟨v, given, own, -⟩ := step_target R'.plain exist extension
    (symbolStatement_targets R'.marker exist extension
      (symbolFor symbol_for_cls symbol_for_subcls item.1))
  have value : v = symbolFor symbol_for_cls symbol_for_subcls item.1 := by
    simpa [symbolStatement, Step.items] using given
  rw [addSymbolMethods, List.foldl_append, List.foldl_cons, if_pos symbolizer]
  refine (addSymbolMethods_other ?_ (R.ne_injector hitem) fun i hi _ => later i hi).trans ?_
  · exact Nat.lt_of_lt_of_le exist (step_classes _ _).1
  · exact own.trans (congrArg some value)

/-- What the loop tests of a name. -/
theorem isSymbolizer_iff {name : String} : isSymbolizer name = true ↔
    "Symbolizer".toList <:+ name.toList ∧ ¬ "_".toList <+: name.toList := by
  rw [isSymbolizer, Bool.and_eq_true, List.isSuffixOf_iff_suffix, Bool.not_eq_true',
    ← Bool.not_eq_true, List.isPrefixOf_iff_prefix]

/-- **Installing the symbol methods** does the same in every order: the class called `Symbolizer`
has the method for it, the other symbolizers have the one for derived classes, and no other class
has a new `symbol`. -/
theorem symbols_installed (R : Ready s injector vars) (distinct : (vars.map Prod.snd).Nodup)
    (order : vars'.Perm vars) :
    (∀ item ∈ vars, "Symbolizer".toList <:+ item.1.toList → ¬ "_".toList <+: item.1.toList →
      (addSymbolMethods symbol_for_cls symbol_for_subcls injector vars' s).heap.own item.2 "symbol" =
        some (if item.1 = "Symbolizer" then symbol_for_cls else symbol_for_subcls)) ∧
    (∀ item ∈ vars, ¬ ("Symbolizer".toList <:+ item.1.toList ∧ ¬ "_".toList <+: item.1.toList) →
      (addSymbolMethods symbol_for_cls symbol_for_subcls injector vars' s).heap.own item.2 "symbol" =
        s.heap.own item.2 "symbol") ∧
    (∀ c < s.heap.next, c ≠ injector →
      (∀ item ∈ vars, "Symbolizer".toList <:+ item.1.toList → ¬ "_".toList <+: item.1.toList →
        item.2 ≠ c) →
      (addSymbolMethods symbol_for_cls symbol_for_subcls injector vars' s).heap.own c "symbol" =
        s.heap.own c "symbol") ∧
    ∀ item ∈ vars,
      (addSymbolMethods symbol_for_cls symbol_for_subcls injector vars' s).heap.own item.2 "symbol" =
        (addSymbolMethods symbol_for_cls symbol_for_subcls injector vars s).heap.own item.2
          "symbol" := by
  have R' : Ready s injector vars' :=
    ⟨R.plain, R.marker, fun item hitem => R.classes item (order.mem_iff.mp hitem)⟩
  have distinct' : (vars'.map Prod.snd).Nodup := (order.map Prod.snd).nodup_iff.mpr distinct
  have other : ∀ item ∈ vars, ¬ isSymbolizer item.1 = true →
      (addSymbolMethods symbol_for_cls symbol_for_subcls injector vars' s).heap.own item.2 "symbol" =
        s.heap.own item.2 "symbol" ∧
      (addSymbolMethods symbol_for_cls symbol_for_subcls injector vars s).heap.own item.2 "symbol" =
        s.heap.own item.2 "symbol" := by
    intro item hitem plain
    have exist := (R.classes item hitem).1
    -- no symbolizer can be the same class
    have apart : ∀ i ∈ vars, isSymbolizer i.1 = true → i.2 ≠ item.2 := by
      intro i hi symbolizer same
      obtain rfl := List.inj_on_of_nodup_map distinct hi hitem same
      exact plain symbolizer
    constructor
    · exact addSymbolMethods_other exist (R.ne_injector hitem) fun i hi =>
        apart i (order.mem_iff.mp hi)
    · exact addSymbolMethods_other exist (R.ne_injector hitem) apart
  refine ⟨fun item hitem ends begins => ?_, fun item hitem plain => ?_,
    fun c exist marker names => ?_, fun item hitem => ?_⟩
  · exact addSymbolMethods_own R' distinct' (order.mem_iff.mpr hitem)
      (isSymbolizer_iff.mpr ⟨ends, begins⟩)
  · exact (other item hitem fun symbolizer => plain (isSymbolizer_iff.mp symbolizer)).1
  · apply addSymbolMethods_other exist marker
    intro item hitem symbolizer
    obtain ⟨ends, begins⟩ := isSymbolizer_iff.mp symbolizer
    exact names item (order.mem_iff.mp hitem) ends begins
  · by_cases symbolizer : isSymbolizer item.1 = true
    · rw [addSymbolMethods_own R' distinct' (order.mem_iff.mpr hitem) symbolizer,
        addSymbolMethods_own R distinct hitem symbolizer]
    · rw [(other item hitem symbolizer).1, (other item hitem symbolizer).2]

end Installing

/-- The classes of the module, with `Symbolizer` (4), `PointSymbolizer` derived from it (6) and
`Layer` (7). -/
def symbolizerClasses : Heap String ℕ where
  next := 8
  type c := [0, 0, 0, 0, 2, 3, 2, 2].getD c 0
  mro c := [[0, 1], [1], [2, 0, 1], [3, 2, 0, 1], [4, 1], [5, 1], [6, 4, 1], [7, 1]].getD c []
  own _ _ := none
  type_bound := by decide
  bound := by decide
  head := by decide
  root := by decide
  nodup := by decide
  closed := by decide
  mono := by decide
  type_object := rfl

/-- The names of the module in two orders, `Symbolizer` first and last. -/
def baseFirst : List (String × ClassId) :=
  [("Symbolizer", 4), ("PointSymbolizer", 6), ("Layer", 7)]

def derivedFirst : List (String × ClassId) :=
  [("Layer", 7), ("PointSymbolizer", 6), ("Symbolizer", 4)]

/-- The module before the symbol methods are installed. -/
def loadedSymbolizers : Interpreter ℕ := ⟨⟨symbolizerClasses, []⟩, [3]⟩

theorem loadedSymbolizers_ready : Ready loadedSymbolizers 5 baseFirst := by
  have plain : ∀ m ∈ [2, 0, 1], [0, 0, 0, 0, 2, 3, 2, 2].getD m 0 = 0 := by decide
  exact ⟨plain, ⟨by decide, rfl, by decide, by decide, by decide⟩, by decide⟩

/-- What a class has under `symbol` after the names in this order. -/
def symbolAfter (vars : List (String × ClassId)) (c : ClassId) : Option ℕ :=
  (addSymbolMethods 0 1 5 vars loadedSymbolizers).heap.own c "symbol"

/-- `Symbolizer`, the class derived from it and a class under another name, in both orders. -/
theorem symbolizers_installed :
    (symbolAfter derivedFirst 4 = some 0 ∧ symbolAfter derivedFirst 6 = some 1 ∧
      symbolAfter derivedFirst 7 = none) ∧
    symbolAfter baseFirst 4 = some 0 ∧ symbolAfter baseFirst 6 = some 1 ∧
      symbolAfter baseFirst 7 = none := by
  have order : derivedFirst.Perm baseFirst := by decide
  have named : isSymbolizer "Symbolizer" ∧ isSymbolizer "PointSymbolizer" ∧
      ¬ isSymbolizer "Layer" := by decide
  simp only [isSymbolizer_iff] at named
  obtain ⟨⟨ends, begins⟩, ⟨ends', begins'⟩, plain⟩ := named
  obtain ⟨methods, others, -, same⟩ :=
    symbols_installed (V := ℕ) loadedSymbolizers_ready (by decide) order
  have base := methods ("Symbolizer", 4) (by decide) ends begins
  have derived := methods ("PointSymbolizer", 6) (by decide) ends' begins'
  have layer := others ("Layer", 7) (by decide) plain
  refine ⟨⟨base, derived, layer⟩, ?_, ?_, ?_⟩
  · exact (same ("Symbolizer", 4) (by decide)).symm.trans base
  · exact (same ("PointSymbolizer", 6) (by decide)).symm.trans derived
  · exact (same ("Layer", 7) (by decide)).symm.trans layer

end MapnikPackaging.Bindings
