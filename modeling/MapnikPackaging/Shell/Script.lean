/-
Shell scripts as environment transformers that carry their own footprint.

A `Script` is a function on shell environments together with a static account of
what it reads: `guards` decide whether it runs to the end under `set -u`, `need vs`
are the variables whose initial values fix the final values of `vs`, and `touches`
are the only variables it may change; `flow` follows which variables are set, so that a
script that cannot trip over an unset one is known to complete. The laws relating the
account to the function are fields of the structure, so every script built from the combinators
below comes with them, and two runs from different environments are compared by
evaluating two lists, each command passing on backwards what it needs itself.

* `Script.status_eq` and `Script.final_eq` — the two-run laws: agreement on the
  guards gives the same completion, agreement on `need vs` the same final `vs`.
* `Script.frame` — everything outside `touches` is unchanged.
* `Script.flow_ok` — a script whose expansions are all of set variables completes.
* `block_value` — an assignment whose variables are not touched again is an
  equation of the final environment.
* `block_congr` — a command may be exchanged for one that runs alike in the
  environment it is reached in.

Nothing here names a variable: `V` is any type with decidable equality, and `M` is
whatever the commands consult beside their variables. A script is a closed term, so its
footprint can be evaluated once for every machine.
-/

import Mathlib.Logic.Function.Basic
import Mathlib.Data.List.Basic

namespace Shell

/-- A shell environment; `none` is an unset variable. -/
abbrev Env (V : Type) := V → Option String

/-- Why a script stops before its end: an unset variable is expanded under
`set -u`, or the script exits with a message. -/
inductive Abort (V : Type) where
  | unbound (x : V)
  | exit (message : String)
deriving DecidableEq, Repr

/-- What a run leaves behind. -/
abbrev Outcome (V : Type) := Except (Abort V) (Env V)

/-- Whether, and if not why, a run stopped early. -/
def status {ε α : Type} : Except ε α → Except ε Unit
  | .ok _ => .ok ()
  | .error e => .error e

@[simp] theorem status_ok {ε α : Type} (a : α) : status (.ok a : Except ε α) = .ok () := rfl

@[simp] theorem status_error {ε α : Type} (e : ε) :
    status (.error e : Except ε α) = .error e := rfl

/-- A sequence that completes has completed its first part. -/
theorem bind_eq_ok {ε α β : Type} {o : Except ε α} {f : α → Except ε β} {b : β} :
    (o >>= f) = .ok b ↔ ∃ a, o = .ok a ∧ f a = .ok b := by
  cases o <;> simp [bind, Except.bind]

/-- Two environments give the listed variables the same values. -/
def AgreeOn {V : Type} (xs : List V) (s t : Env V) : Prop :=
  ∀ x ∈ xs, s x = t x

section Agree

variable {V : Type} {s t : Env V}

theorem AgreeOn.mono {xs ys : List V} (h : AgreeOn ys s t) (sub : xs ⊆ ys) :
    AgreeOn xs s t :=
  fun x hx => h x (sub hx)

theorem AgreeOn.left {xs ys : List V} (h : AgreeOn (xs ++ ys) s t) : AgreeOn xs s t :=
  h.mono (List.subset_append_left xs ys)

theorem AgreeOn.right {xs ys : List V} (h : AgreeOn (xs ++ ys) s t) : AgreeOn ys s t :=
  h.mono (List.subset_append_right xs ys)

end Agree

/-- All the listed variables are set. -/
def AllSet {V : Type} (xs : List V) (s : Env V) : Prop :=
  ∀ x ∈ xs, s x ≠ none

theorem AllSet.mono {V : Type} {s : Env V} {xs ys : List V} (h : AllSet ys s) (sub : xs ⊆ ys) :
    AllSet xs s :=
  fun x hx => h x (sub hx)

/-- The union of two lists; footprints are kept short with it. -/
def merge {V : Type} [DecidableEq V] (xs ys : List V) : List V := xs.foldr List.insert ys

@[simp] theorem mem_merge {V : Type} [DecidableEq V] {xs ys : List V} {x : V} :
    x ∈ merge xs ys ↔ x ∈ xs ∨ x ∈ ys := by
  induction xs with
  | nil => simp [merge]
  | cons y xs ih =>
    simp only [merge, List.foldr_cons, List.mem_insert_iff, List.mem_cons] at ih ⊢
    rw [ih, or_assoc]

theorem agreeOn_merge {V : Type} [DecidableEq V] {xs ys : List V} {s t : Env V} :
    AgreeOn (merge xs ys) s t ↔ AgreeOn xs s t ∧ AgreeOn ys s t := by
  simp only [AgreeOn, mem_merge]
  exact ⟨fun h => ⟨fun x hx => h x (.inl hx), fun x hx => h x (.inr hx)⟩,
    fun h x hx => hx.elim (h.1 x) (h.2 x)⟩

/-! ### Words and tests -/

/-- One piece of a word: text, the output of a command, `${X}`, `${X:-d}`, or the output
of a command run on `${X}`. -/
inductive Seg (M V : Type) where
  | lit (t : String)
  | ask (f : M → String)
  | val (x : V)
  | dflt (x : V) (d : String)
  | out (f : M → String → String) (x : V)

/-- A word is expanded piece by piece and concatenated. -/
abbrev Word (M V : Type) := List (Seg M V)

instance {M V : Type} : Coe String (Seg M V) := ⟨.lit⟩

instance {M V : Type} : Coe V (Seg M V) := ⟨.val⟩

/-- `${X:-d}`: the default stands in for an unset and for an empty variable. -/
def orDefault (o : Option String) (d : String) : String :=
  match o with
  | none => d
  | some t => if t = "" then d else t

@[simp] theorem orDefault_some_empty (t : String) : orDefault (some t) "" = t := by
  by_cases h : t = "" <;> simp [orDefault, h]

section Words

variable {M V : Type}

/-- `${X}` under `set -u`. -/
def fetch (s : Env V) (x : V) : Except (Abort V) String :=
  match s x with
  | some t => .ok t
  | none => .error (.unbound x)

def Seg.eval (m : M) (s : Env V) : Seg M V → Except (Abort V) String
  | .lit t => .ok t
  | .ask f => .ok (f m)
  | .val x => fetch s x
  | .dflt x d => .ok (orDefault (s x) d)
  | .out f x => (fetch s x).map (f m)

def Seg.reads : Seg M V → List V
  | .lit _ | .ask _ => []
  | .val x | .dflt x _ | .out _ x => [x]

/-- The variables whose absence makes the expansion fail. -/
def Seg.needs : Seg M V → List V
  | .lit _ | .ask _ | .dflt _ _ => []
  | .val x | .out _ x => [x]

def Word.eval (m : M) (s : Env V) : Word M V → Except (Abort V) String
  | [] => .ok ""
  | g :: w => do
      let a ← g.eval m s
      let b ← Word.eval m s w
      return a ++ b

def Word.reads (w : Word M V) : List V := w.flatMap Seg.reads

def Word.needs (w : Word M V) : List V := w.flatMap Seg.needs

@[simp] theorem Word.eval_nil {m : M} {s : Env V} : Word.eval m s [] = .ok "" := rfl

@[simp] theorem Word.eval_lit {m : M} {s : Env V} (t : String) (w : Word M V) :
    Word.eval m s (.lit t :: w) = (Word.eval m s w).map (t ++ ·) := by
  cases h : Word.eval m s w <;> simp [Word.eval, Seg.eval, h, Except.map, bind, Except.bind, pure,
    Except.pure]

@[simp] theorem Word.eval_ask {m : M} {s : Env V} (f : M → String) (w : Word M V) :
    Word.eval m s (.ask f :: w) = (Word.eval m s w).map (f m ++ ·) := by
  cases h : Word.eval m s w <;> simp [Word.eval, Seg.eval, h, Except.map, bind, Except.bind, pure,
    Except.pure]

@[simp] theorem Word.eval_dflt {m : M} {s : Env V} (x : V) (d : String) (w : Word M V) :
    Word.eval m s (.dflt x d :: w) = (Word.eval m s w).map (orDefault (s x) d ++ ·) := by
  cases h : Word.eval m s w <;> simp [Word.eval, Seg.eval, h, Except.map, bind, Except.bind, pure,
    Except.pure]

theorem Word.eval_out {m : M} {s : Env V} {x : V} {t : String} (f : M → String → String)
    (hx : s x = some t) (w : Word M V) :
    Word.eval m s (.out f x :: w) = (Word.eval m s w).map (f m t ++ ·) := by
  cases h : Word.eval m s w <;> simp [Word.eval, Seg.eval, fetch, hx, h, Except.map, bind,
    Except.bind, pure, Except.pure]

theorem Word.eval_val {m : M} {s : Env V} {x : V} {t : String} (hx : s x = some t) (w : Word M V) :
    Word.eval m s (.val x :: w) = (Word.eval m s w).map (t ++ ·) := by
  cases h : Word.eval m s w <;> simp [Word.eval, Seg.eval, fetch, hx, h, Except.map, bind,
    Except.bind, pure, Except.pure]

theorem Word.eval_lit_ok {m : M} {s : Env V} {t a : String} {w : Word M V}
    (h : Word.eval m s (.lit t :: w) = .ok a) : ∃ b, Word.eval m s w = .ok b ∧ a = t ++ b := by
  rw [Word.eval_lit] at h
  cases hw : Word.eval m s w with
  | error e => rw [hw] at h; cases h
  | ok b =>
    rw [hw] at h
    exact ⟨b, rfl, (Except.ok.inj h).symm⟩

theorem Word.eval_val_ok {m : M} {s : Env V} {x : V} {a : String} {w : Word M V}
    (h : Word.eval m s (.val x :: w) = .ok a) :
    ∃ t b, s x = some t ∧ Word.eval m s w = .ok b ∧ a = t ++ b := by
  cases hx : s x with
  | none => simp [Word.eval, Seg.eval, fetch, hx, bind, Except.bind] at h
  | some t =>
    rw [Word.eval_val hx] at h
    cases hw : Word.eval m s w with
    | error e => rw [hw] at h; cases h
    | ok b =>
      rw [hw] at h
      exact ⟨t, b, rfl, rfl, (Except.ok.inj h).symm⟩

theorem Seg.eval_congr {m : M} {s t : Env V} (g : Seg M V) (h : AgreeOn g.reads s t) :
    g.eval m s = g.eval m t := by
  cases g with
  | lit u => rfl
  | ask f => rfl
  | val x => simp [Seg.eval, fetch, h x (by simp [Seg.reads])]
  | dflt x d => simp [Seg.eval, h x (by simp [Seg.reads])]
  | out f x => simp [Seg.eval, fetch, h x (by simp [Seg.reads])]

theorem Word.eval_congr {m : M} {s t : Env V} (w : Word M V) (h : AgreeOn (Word.reads w) s t) :
    Word.eval m s w = Word.eval m t w := by
  induction w with
  | nil => rfl
  | cons g w ih =>
    have hg : AgreeOn g.reads s t := h.mono (by simp [Word.reads])
    have hw : AgreeOn (Word.reads w) s t := h.mono (by simp [Word.reads])
    simp only [Word.eval, g.eval_congr hg, ih hw]

theorem Seg.status_congr {m : M} {s t : Env V} (g : Seg M V) (h : AgreeOn g.needs s t) :
    status (g.eval m s) = status (g.eval m t) := by
  cases g with
  | lit u => rfl
  | ask f => rfl
  | val x => simp [Seg.eval, fetch, h x (by simp [Seg.needs])]
  | dflt x d => rfl
  | out f x => simp [Seg.eval, fetch, h x (by simp [Seg.needs])]

theorem Word.status_congr {m : M} {s t : Env V} (w : Word M V) (h : AgreeOn (Word.needs w) s t) :
    status (Word.eval m s w) = status (Word.eval m t w) := by
  induction w with
  | nil => rfl
  | cons g w ih =>
    have needs : AgreeOn g.needs s t := h.mono (by simp [Word.needs])
    have hg := g.status_congr (m := m) needs
    have hw := ih (h.mono (by simp [Word.needs]))
    simp only [Word.eval]
    cases hs : g.eval m s <;> cases ht : g.eval m t <;> simp only [hs, ht, status_ok, status_error,
      Except.error.injEq, reduceCtorEq] at hg
    · subst hg; rfl
    · cases hs' : Word.eval m s w <;> cases ht' : Word.eval m t w <;>
        simp only [hs', ht', status_ok, status_error, Except.error.injEq, reduceCtorEq] at hw
      · subst hw; rfl
      · rfl

theorem Seg.eval_of_set {m : M} {s : Env V} (g : Seg M V) (h : AllSet g.needs s) :
    ∃ a, g.eval m s = .ok a := by
  have fetched : ∀ x, s x ≠ none → ∃ a, fetch s x = .ok a := by
    intro x hx
    obtain ⟨a, ha⟩ := Option.ne_none_iff_exists'.mp hx
    exact ⟨a, by simp [fetch, ha]⟩
  cases g with
  | lit u => exact ⟨u, rfl⟩
  | ask f => exact ⟨f m, rfl⟩
  | val x => exact fetched x (h x (by simp [Seg.needs]))
  | dflt x d => exact ⟨_, rfl⟩
  | out f x =>
    obtain ⟨a, ha⟩ := fetched x (h x (by simp [Seg.needs]))
    exact ⟨f m a, by simp [Seg.eval, ha, Except.map]⟩

theorem Word.eval_of_set {m : M} {s : Env V} (w : Word M V) (h : AllSet (Word.needs w) s) :
    ∃ a, Word.eval m s w = .ok a := by
  induction w with
  | nil => exact ⟨"", rfl⟩
  | cons g w ih =>
    obtain ⟨a, ha⟩ := g.eval_of_set (m := m) (h.mono (by simp [Word.needs]))
    obtain ⟨b, hb⟩ := ih (h.mono (by simp [Word.needs]))
    refine ⟨a ++ b, ?_⟩
    simp only [Word.eval, ha, hb]
    rfl

/-- An expansion that succeeds found every variable it needs. -/
theorem Word.set_of_eval {m : M} {s : Env V} {w : Word M V} {a : String}
    (h : Word.eval m s w = .ok a) : AllSet (Word.needs w) s := by
  induction w generalizing a with
  | nil => simp [AllSet, Word.needs]
  | cons g w ih =>
    simp only [Word.eval] at h
    cases hg : g.eval m s with
    | error e => rw [hg] at h; cases h
    | ok b =>
      cases hw : Word.eval m s w with
      | error e => rw [hg, hw] at h; cases h
      | ok c =>
        intro x hx
        simp only [Word.needs, List.flatMap_cons, List.mem_append] at hx
        rcases hx with hx | hx
        · intro hnone
          cases g <;> simp only [Seg.needs, List.mem_singleton, List.not_mem_nil] at hx <;>
            subst hx <;> simp [Seg.eval, fetch, hnone, Except.map] at hg
        · exact ih hw x hx

end Words

/-- The condition of an `if`: a predicate on expanded words, closed under `!`, `||`
and `&&`. -/
inductive Test (M V : Type) where
  | holds (p : M → List String → Bool) (ws : List (Word M V))
  | not (c : Test M V)
  | or (c d : Test M V)
  | and (c d : Test M V)

section Tests

variable {M V : Type}

/-- Expand the words from left to right. -/
def expandAll (m : M) (s : Env V) : List (Word M V) → Except (Abort V) (List String)
  | [] => .ok []
  | w :: ws => do
      let a ← Word.eval m s w
      let as ← expandAll m s ws
      return a :: as

/-- `||` and `&&` expand their right side only when the left does not decide. -/
def Test.eval (m : M) (s : Env V) : Test M V → Except (Abort V) Bool
  | .holds p ws => (expandAll m s ws).map (p m)
  | .not c => (c.eval m s).map (! ·)
  | .or c d => do if ← c.eval m s then return true else d.eval m s
  | .and c d => do if ← c.eval m s then d.eval m s else return false

def Test.reads : Test M V → List V
  | .holds _ ws => ws.flatMap Word.reads
  | .not c => c.reads
  | .or c d | .and c d => c.reads ++ d.reads

/-- Variables whose absence can make the test fail. -/
def Test.needs : Test M V → List V
  | .holds _ ws => ws.flatMap Word.needs
  | .not c => c.needs
  | .or c d | .and c d => c.needs ++ d.needs

theorem expandAll_congr {m : M} {s t : Env V} (ws : List (Word M V))
    (h : AgreeOn (ws.flatMap Word.reads) s t) : expandAll m s ws = expandAll m t ws := by
  induction ws with
  | nil => rfl
  | cons w ws ih =>
    have hw : AgreeOn (Word.reads w) s t := h.mono (by simp)
    have hws : AgreeOn (ws.flatMap Word.reads) s t := h.mono (by simp)
    simp only [expandAll, w.eval_congr hw, ih hws]

theorem Test.eval_congr {m : M} {s t : Env V} (c : Test M V) (h : AgreeOn c.reads s t) :
    c.eval m s = c.eval m t := by
  induction c with
  | holds p ws => simp only [Test.eval, expandAll_congr ws h]
  | not c ih => simp only [Test.eval, ih h]
  | or c d ihc ihd => simp only [Test.eval, ihc h.left, ihd h.right]
  | and c d ihc ihd => simp only [Test.eval, ihc h.left, ihd h.right]

theorem expandAll_of_set {m : M} {s : Env V} (ws : List (Word M V))
    (h : AllSet (ws.flatMap Word.needs) s) : ∃ as, expandAll m s ws = .ok as := by
  induction ws with
  | nil => exact ⟨[], rfl⟩
  | cons w ws ih =>
    obtain ⟨a, ha⟩ := w.eval_of_set (m := m) (h.mono (by simp))
    obtain ⟨as, has⟩ := ih (h.mono (by simp))
    refine ⟨a :: as, ?_⟩
    simp only [expandAll, ha, has]
    rfl

theorem Test.eval_of_set {m : M} {s : Env V} (c : Test M V) (h : AllSet c.needs s) :
    ∃ d, c.eval m s = .ok d := by
  induction c with
  | holds p ws =>
    obtain ⟨as, has⟩ := expandAll_of_set (m := m) ws h
    exact ⟨p m as, by simp [Test.eval, has, Except.map]⟩
  | not c ih =>
    obtain ⟨d, hd⟩ := ih h
    exact ⟨!d, by simp [Test.eval, hd, Except.map]⟩
  | or c d ihc ihd =>
    obtain ⟨a, ha⟩ := ihc (h.mono (by simp [Test.needs]))
    obtain ⟨b, hb⟩ := ihd (h.mono (by simp [Test.needs]))
    cases a
    · exact ⟨b, by simp only [Test.eval, ha, hb]; rfl⟩
    · exact ⟨true, by simp only [Test.eval, ha]; rfl⟩
  | and c d ihc ihd =>
    obtain ⟨a, ha⟩ := ihc (h.mono (by simp [Test.needs]))
    obtain ⟨b, hb⟩ := ihd (h.mono (by simp [Test.needs]))
    cases a
    · exact ⟨false, by simp only [Test.eval, ha]; rfl⟩
    · exact ⟨b, by simp only [Test.eval, ha, hb]; rfl⟩

/-- `[[ w == t ]]` with a quoted or literal right side. -/
def Test.is (w : Word M V) (t : String) : Test M V :=
  .holds (fun _ as => as.all (· = t)) [w]

/-- `[[ ${X:-false} != false ]]`: the flag idiom of the scripts. -/
def Test.flag (x : V) : Test M V := .not (.is [.dflt x "false"] "false")

end Tests

/-! ### Scripts -/

/-- A script with its footprint. -/
structure Script (M V : Type) where
  run : M → Env V → Outcome V
  /-- Variables whose initial values decide whether the script completes. -/
  guards : List V
  /-- Variables whose initial values fix the final values of the given ones. -/
  need : List V → List V
  /-- The only variables whose value may change. -/
  touches : List V
  /-- Variables the script marks for export. -/
  exports : List V
  /-- Given variables that are set at the start, `none` if the script may stop early, else
  variables that are set at the end. -/
  flow : List V → Option (List V)
  status_eq : ∀ {m : M} {s t : Env V}, AgreeOn guards s t → status (run m s) = status (run m t)
  final_eq : ∀ {m : M} {s t s' t' : Env V}, run m s = .ok s' → run m t = .ok t' →
    ∀ vs, AgreeOn (need vs) s t → AgreeOn vs s' t'
  frame : ∀ {m : M} {s s' : Env V}, run m s = .ok s' → ∀ v, v ∉ touches → s' v = s v
  flow_ok : ∀ {m : M} {s : Env V} {xs ys : List V}, flow xs = some ys → AllSet xs s →
    ∃ s', run m s = .ok s' ∧ AllSet ys s'

namespace Script

variable {M V : Type} [DecidableEq V]

/-- The same script with `x` marked for export. -/
def exporting (x : V) (c : Script M V) : Script M V := { c with exports := x :: c.exports }

/-- Print the message and `exit 1`. -/
def exit (message : String) : Script M V where
  run _ _ := .error (.exit message)
  guards := []
  need vs := vs
  touches := []
  exports := []
  flow _ := none
  status_eq := fun _ => rfl
  final_eq := by intro m s t s' t' hs; cases hs
  frame := by intro m s s' hs; cases hs
  flow_ok := by intro m s xs ys h; cases h

/-- A command that leaves the environment alone; its words are still expanded, so an
unset variable stops the script. -/
def command (w : Word M V) : Script M V where
  run m s := (Word.eval m s w).map fun _ => s
  guards := Word.needs w
  need vs := vs
  touches := []
  exports := []
  flow xs := if Word.needs w ⊆ xs then some xs else none
  status_eq := by
    intro m s t h
    have hw := w.status_congr (m := m) h
    cases hs : Word.eval m s w <;> cases ht : Word.eval m t w <;> simp_all [Except.map]
  final_eq := by
    intro m s t s' t' hs ht vs h
    cases he : Word.eval m s w <;> cases he' : Word.eval m t w <;>
      simp only [he, he', Except.map, Except.ok.injEq, reduceCtorEq] at hs ht
    rw [← hs, ← ht]
    exact h
  frame := by
    intro m s s' hs v _
    cases he : Word.eval m s w <;>
      simp only [he, Except.map, Except.ok.injEq, reduceCtorEq] at hs
    rw [← hs]
  flow_ok := by
    intro m s xs ys h set
    split at h
    · rename_i sub
      obtain ⟨a, ha⟩ := w.eval_of_set (m := m) (set.mono sub)
      cases h
      exact ⟨s, by rw [ha]; rfl, set⟩
    · cases h

omit [DecidableEq V] in
theorem map_const_ok {o : Except (Abort V) String} {s s' : Env V} (h : o.map (fun _ => s) = .ok s') :
    s' = s := by
  cases o with
  | error e => cases h
  | ok a => exact (Except.ok.inj h).symm

/-- A command that completes has changed nothing. -/
theorem command_ok {w : Word M V} {m : M} {s s' : Env V} (h : (command w).run m s = .ok s') :
    s' = s :=
  map_const_ok h

def skip : Script M V := command []

/-- `a; b`. -/
def seq (a b : Script M V) : Script M V where
  run m s := (a.run m s).bind (b.run m)
  guards := merge a.guards (a.need b.guards)
  need vs := a.need (b.need vs)
  touches := a.touches ++ b.touches
  exports := a.exports ++ b.exports
  flow xs := (a.flow xs).bind b.flow
  status_eq := by
    intro m s t h
    obtain ⟨hguards, hneed⟩ := agreeOn_merge.mp h
    have ha := a.status_eq (m := m) hguards
    cases hs : a.run m s <;> cases ht : a.run m t <;>
      simp only [hs, ht, status_ok, status_error, Except.error.injEq, reduceCtorEq] at ha
    · subst ha; rfl
    · exact b.status_eq (a.final_eq hs ht b.guards hneed)
  final_eq := by
    intro m s t s' t' hs ht vs h
    cases has : a.run m s <;> cases hat : a.run m t <;>
      simp only [has, hat, Except.bind, reduceCtorEq] at hs ht
    exact b.final_eq hs ht vs (a.final_eq has hat _ h)
  frame := by
    intro m s s' hs v hv
    rw [List.mem_append, not_or] at hv
    cases has : a.run m s with
    | error e => simp only [has, Except.bind, reduceCtorEq] at hs
    | ok s₁ =>
      simp only [has, Except.bind] at hs
      exact (b.frame hs v hv.2).trans (a.frame has v hv.1)
  flow_ok := by
    intro m s xs ys h set
    obtain ⟨zs, ha, hb⟩ := Option.bind_eq_some_iff.mp h
    obtain ⟨s₁, hs₁, set₁⟩ := a.flow_ok (m := m) ha set
    obtain ⟨s', hs', set'⟩ := b.flow_ok (m := m) hb set₁
    exact ⟨s', by rw [hs₁]; exact hs', set'⟩

/-- The commands of a file in order. -/
def block : List (Script M V) → Script M V
  | [] => skip
  | c :: cs => seq c (block cs)

/-! ### Running a block -/

@[simp] theorem skip_run (m : M) (s : Env V) : (skip : Script M V).run m s = .ok s := rfl

@[simp] theorem block_nil_run (m : M) (s : Env V) :
    (block ([] : List (Script M V))).run m s = .ok s := rfl

theorem block_cons_run (c : Script M V) (cs : List (Script M V)) (m : M) (s : Env V) :
    (block (c :: cs)).run m s = (c.run m s).bind ((block cs).run m) := rfl

theorem block_cons_of_run {c : Script M V} (cs : List (Script M V)) {m : M} {s s₁ : Env V}
    (h : c.run m s = .ok s₁) : (block (c :: cs)).run m s = (block cs).run m s₁ := by
  rw [block_cons_run, h]
  rfl

theorem block_append_run (cs ds : List (Script M V)) (m : M) (s : Env V) :
    (block (cs ++ ds)).run m s = ((block cs).run m s).bind ((block ds).run m) := by
  induction cs generalizing s with
  | nil => rfl
  | cons c cs ih =>
    simp only [List.cons_append, block_cons_run]
    cases c.run m s with
    | error e => rfl
    | ok s₁ => exact ih s₁

theorem block_append_of_run {cs : List (Script M V)} (ds : List (Script M V)) {m : M} {s s₁ : Env V}
    (h : (block cs).run m s = .ok s₁) : (block (cs ++ ds)).run m s = (block ds).run m s₁ := by
  rw [block_append_run, h]
  rfl

/-- A completed block passes through a middle environment at every cut. -/
theorem block_append_ok {cs ds : List (Script M V)} {m : M} {s s' : Env V}
    (h : (block (cs ++ ds)).run m s = .ok s') :
    ∃ s₁, (block cs).run m s = .ok s₁ ∧ (block ds).run m s₁ = .ok s' := by
  rw [block_append_run] at h
  cases hc : (block cs).run m s with
  | error e => rw [hc] at h; cases h
  | ok s₁ => rw [hc] at h; exact ⟨s₁, rfl, h⟩

theorem block_cons_ok {c : Script M V} {cs : List (Script M V)} {m : M} {s s' : Env V}
    (h : (block (c :: cs)).run m s = .ok s') :
    ∃ s₁, c.run m s = .ok s₁ ∧ (block cs).run m s₁ = .ok s' := by
  rw [block_cons_run] at h
  cases hc : c.run m s with
  | error e => rw [hc] at h; cases h
  | ok s₁ => rw [hc] at h; exact ⟨s₁, rfl, h⟩

/-- What every command of a block preserves, the block preserves. -/
theorem block_preserves {J : Env V → Prop} {m : M} : ∀ {cs : List (Script M V)} {s s' : Env V},
    (∀ c ∈ cs, ∀ s s', c.run m s = .ok s' → J s → J s') → (block cs).run m s = .ok s' → J s → J s'
  | [], s, s', _, h, hs => by
    cases h
    exact hs
  | c :: cs, s, s', step, h, hs => by
    obtain ⟨s₁, h₁, h₂⟩ := block_cons_ok h
    exact block_preserves (fun d hd => step d (List.mem_cons_of_mem c hd)) h₂
      (step c (by simp) s s₁ h₁ hs)

theorem mem_block_touches {cs : List (Script M V)} {v : V} :
    v ∈ (block cs).touches ↔ ∃ c ∈ cs, v ∈ c.touches := by
  induction cs with
  | nil => simp [block, skip, command]
  | cons c cs ih => simp [block, seq, ih]

/-- Two ends may be exchanged when they run alike in the environment they are reached in. -/
theorem block_append_congr (cs : List (Script M V)) {ds ds' : List (Script M V)} {m : M} {s : Env V}
    (h : ∀ s₁, (block cs).run m s = .ok s₁ → (block ds).run m s₁ = (block ds').run m s₁) :
    (block (cs ++ ds)).run m s = (block (cs ++ ds')).run m s := by
  simp only [block_append_run]
  cases hp : (block cs).run m s with
  | error e => rfl
  | ok s₁ => exact h s₁ hp

/-- So may one command in the middle. -/
theorem block_congr (pre post : List (Script M V)) {c d : Script M V} {m : M} {s : Env V}
    (h : ∀ s₁, (block pre).run m s = .ok s₁ → c.run m s₁ = d.run m s₁) :
    (block (pre ++ c :: post)).run m s = (block (pre ++ d :: post)).run m s :=
  block_append_congr pre fun s₁ h₁ => by rw [block_cons_run, block_cons_run, h s₁ h₁]

/-- A block inside a block is its commands in line. -/
theorem block_splice (pre cs post : List (Script M V)) (m : M) (s : Env V) :
    (block (pre ++ block cs :: post)).run m s = (block (pre ++ cs ++ post)).run m s := by
  simp only [List.append_assoc, block_append_run]
  cases (block pre).run m s with
  | error e => rfl
  | ok s₁ => simp only [Except.bind, block_cons_run, block_append_run]

/-! ### Writing variables -/

/-- What a write of `x` from the variables `rs` needs for `vs`. -/
def writeNeed (x : V) (rs vs : List V) : List V :=
  if x ∈ vs then merge rs (vs.filter (· ≠ x)) else vs

/-- Environments agreeing on what a write needs, updated at `x` to values that agree
when `rs` do, agree afterwards. -/
theorem agreeOn_update {x : V} {rs vs : List V} {s t : Env V} {a b : Option String}
    (h : AgreeOn (writeNeed x rs vs) s t) (hab : AgreeOn rs s t → a = b) :
    AgreeOn vs (Function.update s x a) (Function.update t x b) := by
  intro v hv
  by_cases hx : v = x
  · subst hx
    rw [writeNeed, if_pos hv] at h
    simpa using hab (agreeOn_merge.mp h).1
  · have hv' : s v = t v := by
      rw [writeNeed] at h
      split at h
      · exact (agreeOn_merge.mp h).2 v (List.mem_filter.mpr ⟨hv, by simpa using hx⟩)
      · exact h v hv
    simpa [hx] using hv'

/-- `X=w` without `export`. -/
def assign (x : V) (w : Word M V) : Script M V where
  run m s := (Word.eval m s w).map fun t => Function.update s x (some t)
  guards := Word.needs w
  need := writeNeed x (Word.reads w)
  touches := [x]
  exports := []
  flow xs := if Word.needs w ⊆ xs then some (x :: xs) else none
  status_eq := by
    intro m s t h
    have hw := w.status_congr (m := m) h
    cases hs : Word.eval m s w <;> cases ht : Word.eval m t w <;> simp_all [Except.map]
  final_eq := by
    intro m s t s' t' hs ht vs h
    cases he : Word.eval m s w <;> cases he' : Word.eval m t w <;>
      simp only [he, he', Except.map, Except.ok.injEq, reduceCtorEq] at hs ht
    rw [← hs, ← ht]
    apply agreeOn_update h
    intro hr
    rw [w.eval_congr hr, he'] at he
    rw [Except.ok.inj he]
  frame := by
    intro m s s' hs v hv
    cases he : Word.eval m s w with
    | error e => simp [he, Except.map] at hs
    | ok a =>
      simp only [he, Except.map, Except.ok.injEq] at hs
      rw [← hs]
      exact Function.update_of_ne (by simpa using hv) _ _
  flow_ok := by
    intro m s xs ys h set
    split at h
    · rename_i sub
      obtain ⟨a, ha⟩ := w.eval_of_set (m := m) (set.mono sub)
      cases h
      refine ⟨Function.update s x (some a), by rw [ha]; rfl, fun y hy => ?_⟩
      by_cases hyx : y = x
      · simp [hyx]
      · rw [Function.update_of_ne hyx]
        exact set y ((List.mem_cons.mp hy).resolve_left hyx)
    · cases h

/-- `export X=w`. -/
def «export» (x : V) (w : Word M V) : Script M V := exporting x (assign x w)

@[simp] theorem assign_lit_run (x : V) (t : String) (m : M) (s : Env V) :
    (assign x [.lit t]).run m s = .ok (Function.update s x (some t)) := by
  simp [assign, Except.map]

@[simp] theorem export_lit_run (x : V) (t : String) (m : M) (s : Env V) :
    («export» x [.lit t]).run m s = .ok (Function.update s x (some t)) :=
  assign_lit_run x t m s

/-- `X` set to a function of its own value, which sees whether `X` is set. -/
def adjust (x : V) (f : Option String → Option String) : Script M V where
  run _ s := .ok (Function.update s x (f (s x)))
  guards := []
  need := writeNeed x [x]
  touches := [x]
  exports := []
  flow xs := some (xs.filter (· ≠ x))
  status_eq := fun _ => rfl
  final_eq := by
    intro m s t s' t' hs ht vs h
    simp only [Except.ok.injEq] at hs ht
    rw [← hs, ← ht]
    exact agreeOn_update h fun hr => congrArg f (hr x (by simp))
  frame := by
    intro m s s' hs v hv
    simp only [Except.ok.injEq] at hs
    rw [← hs]
    exact Function.update_of_ne (by simpa using hv) _ _
  flow_ok := by
    intro m s xs ys h set
    cases h
    refine ⟨_, rfl, fun y hy => ?_⟩
    obtain ⟨hy, hyx⟩ := List.mem_filter.mp hy
    rw [Function.update_of_ne (by simpa using hyx)]
    exact set y hy

/-- `unset X`. -/
def unset (x : V) : Script M V where
  run _ s := .ok (Function.update s x none)
  guards := []
  need := writeNeed x []
  touches := [x]
  exports := []
  flow xs := some (xs.filter (· ≠ x))
  status_eq := fun _ => rfl
  final_eq := by
    intro m s t s' t' hs ht vs h
    simp only [Except.ok.injEq] at hs ht
    rw [← hs, ← ht]
    exact agreeOn_update h fun _ => rfl
  frame := by
    intro m s s' hs v hv
    simp only [Except.ok.injEq] at hs
    rw [← hs]
    exact Function.update_of_ne (by simpa using hv) _ _
  flow_ok := by
    intro m s xs ys h set
    cases h
    refine ⟨_, rfl, fun y hy => ?_⟩
    obtain ⟨hy, hyx⟩ := List.mem_filter.mp hy
    rw [Function.update_of_ne (by simpa using hyx)]
    exact set y hy

/-! ### Branching -/

/-- What a branch on `c` needs: the test and both sides, unless neither side touches
any of the variables asked for. -/
def branchNeed (c : Test M V) (a b : Script M V) (vs : List V) : List V :=
  if vs.any (fun v => decide (v ∈ a.touches ∨ v ∈ b.touches)) then
    merge c.reads (merge (a.need vs) (b.need vs))
  else vs

/-- The run of a branch. -/
def branch (c : Test M V) (a b : Script M V) (m : M) (s : Env V) : Outcome V :=
  (c.eval m s).bind fun d => if d then a.run m s else b.run m s

omit [DecidableEq V] in
theorem branch_ok {c : Test M V} {a b : Script M V} {m : M} {s s' : Env V}
    (h : branch c a b m s = .ok s') :
    c.eval m s = .ok true ∧ a.run m s = .ok s' ∨ c.eval m s = .ok false ∧ b.run m s = .ok s' := by
  rw [branch] at h
  cases hc : c.eval m s with
  | error e => rw [hc] at h; cases h
  | ok d =>
    rw [hc] at h
    cases d
    · exact .inr ⟨rfl, h⟩
    · exact .inl ⟨rfl, h⟩

omit [DecidableEq V] in
theorem branch_frame {c : Test M V} {a b : Script M V} {m : M} {s s' : Env V}
    (h : branch c a b m s = .ok s') {v : V} (hv : ¬ (v ∈ a.touches ∨ v ∈ b.touches)) :
    s' v = s v := by
  rw [not_or] at hv
  obtain ⟨-, ha⟩ | ⟨-, hb⟩ := branch_ok h
  · exact a.frame ha v hv.1
  · exact b.frame hb v hv.2

/-- `if c; then a; else b; fi`. -/
def ite (c : Test M V) (a b : Script M V) : Script M V where
  run := branch c a b
  guards := merge c.reads (merge a.guards b.guards)
  need := branchNeed c a b
  touches := a.touches ++ b.touches
  exports := a.exports ++ b.exports
  flow xs := if c.needs ⊆ xs then
      (a.flow xs).bind fun ys => (b.flow xs).map fun zs => ys.filter (· ∈ zs)
    else none
  status_eq := by
    intro m s t h
    obtain ⟨hc, hab⟩ := agreeOn_merge.mp h
    obtain ⟨ha, hb⟩ := agreeOn_merge.mp hab
    rw [branch, branch, c.eval_congr hc]
    cases c.eval m t with
    | error e => rfl
    | ok d =>
      cases d
      · exact b.status_eq hb
      · exact a.status_eq ha
  final_eq := by
    intro m s t s' t' hs ht vs h
    rw [branchNeed] at h
    split at h
    · obtain ⟨hc, hab⟩ := agreeOn_merge.mp h
      obtain ⟨ha, hb⟩ := agreeOn_merge.mp hab
      obtain ⟨es, as⟩ | ⟨es, bs⟩ := branch_ok hs <;> obtain ⟨et, at'⟩ | ⟨et, bt⟩ := branch_ok ht <;>
        rw [c.eval_congr hc, et] at es <;> simp only [Except.ok.injEq, reduceCtorEq] at es
      · exact a.final_eq as at' vs ha
      · exact b.final_eq bs bt vs hb
    · -- Neither side touches any of `vs`, whichever one each run takes.
      rename_i untouched
      intro v hv
      have hv' : ¬ (v ∈ a.touches ∨ v ∈ b.touches) := fun hmem =>
        untouched (List.any_eq_true.mpr ⟨v, hv, by simpa using hmem⟩)
      rw [branch_frame hs hv', branch_frame ht hv']
      exact h v hv
  frame := by
    intro m s s' hs v hv
    exact branch_frame hs (by simpa using hv)
  flow_ok := by
    intro m s xs ys h set
    split at h
    · rename_i sub
      obtain ⟨as, ha, h⟩ := Option.bind_eq_some_iff.mp h
      obtain ⟨bs, hb, rfl⟩ := Option.map_eq_some_iff.mp h
      obtain ⟨d, hd⟩ := c.eval_of_set (m := m) (set.mono sub)
      rw [branch, hd]
      cases d
      · obtain ⟨s', hs', set'⟩ := b.flow_ok (m := m) hb set
        exact ⟨s', hs', set'.mono fun y hy => by simpa using (List.mem_filter.mp hy).2⟩
      · obtain ⟨s', hs', set'⟩ := a.flow_ok (m := m) ha set
        exact ⟨s', hs', set'.mono fun y hy => (List.mem_filter.mp hy).1⟩
    · cases h

/-- `if c; then a; fi`. -/
def when (c : Test M V) (a : Script M V) : Script M V := ite c a skip

/-- `X=t c`: the assignment holds while `c` runs and is undone afterwards. -/
def withTemp (x : V) (t : String) (c : Script M V) : Script M V where
  run m s := (c.run m (Function.update s x (some t))).map fun s' => Function.update s' x (s x)
  guards := c.guards.filter (· ≠ x)
  need vs := merge (if x ∈ vs then [x] else []) ((c.need (vs.filter (· ≠ x))).filter (· ≠ x))
  touches := c.touches
  exports := c.exports
  flow xs := (c.flow (x :: xs)).map (·.filter (· ≠ x))
  status_eq := by
    intro m s u h
    have agree : AgreeOn c.guards (Function.update s x (some t)) (Function.update u x (some t)) := by
      intro y hy
      by_cases hx : y = x
      · simp [hx]
      · simpa [hx] using h y (List.mem_filter.mpr ⟨hy, by simpa using hx⟩)
    have hc := c.status_eq (m := m) agree
    cases hs : c.run m (Function.update s x (some t)) <;>
      cases hu : c.run m (Function.update u x (some t)) <;> simp_all [Except.map]
  final_eq := by
    intro m s u s' u' hs hu vs h
    obtain ⟨hx, hrest⟩ := agreeOn_merge.mp h
    cases hcs : c.run m (Function.update s x (some t)) <;>
      cases hcu : c.run m (Function.update u x (some t)) <;>
      simp only [hcs, hcu, Except.map, Except.ok.injEq, reduceCtorEq] at hs hu
    rw [← hs, ← hu]
    have agree := c.final_eq hcs hcu (vs.filter (· ≠ x)) fun y hy => by
      by_cases hyx : y = x
      · simp [hyx]
      · simpa [hyx] using hrest y (List.mem_filter.mpr ⟨hy, by simpa using hyx⟩)
    intro v hv
    by_cases hvx : v = x
    · subst hvx
      rw [if_pos hv] at hx
      simpa using hx v (by simp)
    · simpa [hvx] using agree v (List.mem_filter.mpr ⟨hv, by simpa using hvx⟩)
  frame := by
    intro m s s' hs v hv
    cases hcs : c.run m (Function.update s x (some t)) <;>
      simp only [hcs, Except.map, Except.ok.injEq, reduceCtorEq] at hs
    rw [← hs]
    by_cases hx : v = x
    · subst hx; simp
    · simpa [hx] using c.frame hcs v hv
  flow_ok := by
    intro m s xs ys h set
    obtain ⟨zs, hc, rfl⟩ := Option.map_eq_some_iff.mp h
    have inner : AllSet (x :: xs) (Function.update s x (some t)) := by
      intro y hy
      by_cases hyx : y = x
      · simp [hyx]
      · rw [Function.update_of_ne hyx]
        exact set y ((List.mem_cons.mp hy).resolve_left hyx)
    obtain ⟨s', hs', set'⟩ := c.flow_ok (m := m) hc inner
    refine ⟨Function.update s' x (s x), by rw [hs']; rfl, fun y hy => ?_⟩
    obtain ⟨hy, hyx⟩ := List.mem_filter.mp hy
    rw [Function.update_of_ne (by simpa using hyx)]
    exact set' y hy

/-! ### Completion -/

/-- A script whose flow does not stop completes and leaves the variables of its flow set. -/
theorem completes {c : Script M V} {m : M} {s : Env V} {i o : List V}
    (flows : (c.flow i).any (fun zs => decide (o ⊆ zs)) = true) (set : AllSet i s) :
    ∃ s', c.run m s = .ok s' ∧ AllSet o s' := by
  obtain ⟨zs, hzs, sub⟩ := (Option.any_eq_true _ _).mp flows
  obtain ⟨s', hs', set'⟩ := c.flow_ok (m := m) hzs set
  exact ⟨s', hs', set'.mono (of_decide_eq_true sub)⟩

/-! ### Reading values off a completed block -/

theorem ite_run_of_eval {c : Test M V} {a b : Script M V} {m : M} {s : Env V} {d : Bool}
    (h : c.eval m s = .ok d) : (ite c a b).run m s = if d then a.run m s else b.run m s := by
  simp only [ite, branch, h, Except.bind]

theorem assign_ok {x : V} {w : Word M V} {m : M} {s s' : Env V} (h : (assign x w).run m s = .ok s') :
    ∃ a, Word.eval m s w = .ok a ∧ s' = Function.update s x (some a) := by
  simp only [assign] at h
  cases he : Word.eval m s w with
  | error e => rw [he] at h; cases h
  | ok a =>
    rw [he] at h
    exact ⟨a, rfl, (Except.ok.inj h).symm⟩

/-- The last command of the list that may write `x`. -/
def lastWriter (x : V) (cs : List (Script M V)) : Option (Script M V) :=
  cs.reverse.find? fun c => decide (x ∈ c.touches)

/-- The commands after the last writer of `x` leave all of `ys` alone. -/
def settled (x : V) (ys : List V) (cs : List (Script M V)) : Bool :=
  (cs.reverse.takeWhile fun c => decide (x ∉ c.touches)).all fun c =>
    ys.all fun y => decide (y ∉ c.touches)

/-- **An assignment is an equation of the final environment** when the variables it
reads are not written again: no later command is consulted. -/
theorem block_value {cs : List (Script M V)} {m : M} {c : Script M V} {x : V} {w : Word M V} {s s' : Env V}
    (h : (block cs).run m s = .ok s') (last : lastWriter x cs = some c)
    (writes : c.run = (assign x w).run) (fresh : x ∉ Word.reads w)
    (stable : settled x (Word.reads w) cs = true) :
    ∃ a, Word.eval m s' w = .ok a ∧ s' x = some a := by
  -- Cut the block at the last writer; the rest touches neither `x` nor what `w` reads.
  obtain ⟨hx, as, bs, hsplit, has⟩ := List.find?_eq_some_iff_append.mp last
  have hcs : cs = bs.reverse ++ c :: as.reverse := by
    rw [← List.reverse_reverse cs, hsplit]
    simp
  have htake : cs.reverse.takeWhile (fun c => decide (x ∉ c.touches)) = as := by
    rw [hsplit, List.takeWhile_append_of_pos (fun d hd => by simpa using has d hd)]
    simp only [List.takeWhile_cons]
    rw [if_neg (by simpa using hx), List.append_nil]
  rw [hcs] at h
  obtain ⟨s₁, -, h₁⟩ := block_append_ok h
  obtain ⟨s₂, hc, h₂⟩ := block_cons_ok h₁
  rw [writes] at hc
  obtain ⟨a, ha, rfl⟩ := assign_ok hc
  have later : ∀ y ∈ x :: Word.reads w, y ∉ (block as.reverse).touches := by
    intro y hy hmem
    obtain ⟨d, hd, hyd⟩ := mem_block_touches.mp hmem
    rw [List.mem_reverse] at hd
    rcases List.mem_cons.mp hy with rfl | hy
    · exact absurd hyd (by simpa using has d hd)
    · rw [settled, htake, List.all_eq_true] at stable
      have := List.all_eq_true.mp (stable d hd) y hy
      exact absurd hyd (by simpa using this)
  refine ⟨a, ?_, ?_⟩
  · rw [← ha]
    apply Word.eval_congr w
    intro y hy
    rw [(block as.reverse).frame h₂ y (later y (by simp [hy]))]
    exact Function.update_of_ne (fun he => fresh (by rwa [← he])) _ _
  · rw [(block as.reverse).frame h₂ x (later x (by simp))]
    simp

/-- `block_value`, with the word already evaluated. -/
theorem block_value_of_eval {cs : List (Script M V)} {m : M} {c : Script M V} {x : V}
    {w : Word M V} {a : String} {s s' : Env V} (h : (block cs).run m s = .ok s')
    (last : lastWriter x cs = some c) (writes : c.run = (assign x w).run)
    (fresh : x ∉ Word.reads w) (stable : settled x (Word.reads w) cs = true)
    (value : Word.eval m s' w = .ok a) : s' x = some a := by
  obtain ⟨b, hb, hx⟩ := block_value h last writes fresh stable
  rw [hx, Except.ok.inj (hb.symm.trans value)]

/-- The first command of the list that may write `x`. -/
def firstWriter (x : V) (cs : List (Script M V)) : Option (Script M V) :=
  cs.find? fun c => decide (x ∈ c.touches)

/-- The commands before the first writer of `x` leave `y` alone. -/
def unread (x y : V) (cs : List (Script M V)) : Bool :=
  (cs.takeWhile fun c => decide (x ∉ c.touches)).all fun c => decide (y ∉ c.touches)

/-- A completed block found set what its first assignment of `x` expands. -/
theorem block_demands {cs : List (Script M V)} {m : M} {c : Script M V} {x y : V} {w : Word M V}
    {s s' : Env V} (h : (block cs).run m s = .ok s') (first : firstWriter x cs = some c)
    (writes : c.run = (assign x w).run) (hy : y ∈ Word.needs w) (fresh : unread x y cs = true) :
    s y ≠ none := by
  obtain ⟨hx, as, bs, rfl, has⟩ := List.find?_eq_some_iff_append.mp first
  have htake : (as ++ c :: bs).takeWhile (fun c => decide (x ∉ c.touches)) = as := by
    rw [List.takeWhile_append_of_pos (fun d hd => by simpa using has d hd)]
    simp only [List.takeWhile_cons]
    rw [if_neg (by simpa using hx), List.append_nil]
  obtain ⟨s₁, h₁, h₂⟩ := block_append_ok h
  obtain ⟨s₂, hc, -⟩ := block_cons_ok h₂
  rw [writes] at hc
  obtain ⟨a, ha, -⟩ := assign_ok hc
  have kept : s₁ y = s y := by
    apply (block as).frame h₁ y
    intro hmem
    obtain ⟨d, hd, hyd⟩ := mem_block_touches.mp hmem
    rw [unread, htake, List.all_eq_true] at fresh
    exact absurd hyd (by simpa using fresh d hd)
  rw [← kept]
  exact Word.set_of_eval ha y hy

/-- The last writer of a variable has the last word on it. -/
theorem block_last {cs : List (Script M V)} {m : M} {c : Script M V} {x : V} {o : Option String}
    {s s' : Env V} (h : (block cs).run m s = .ok s') (last : lastWriter x cs = some c)
    (writes : ∀ s₁ s₂, c.run m s₁ = .ok s₂ → s₂ x = o) : s' x = o := by
  obtain ⟨-, as, bs, hsplit, has⟩ := List.find?_eq_some_iff_append.mp last
  have hcs : cs = bs.reverse ++ c :: as.reverse := by
    rw [← List.reverse_reverse cs, hsplit]
    simp
  rw [hcs] at h
  obtain ⟨s₁, -, h₁⟩ := block_append_ok h
  obtain ⟨s₂, hc, h₂⟩ := block_cons_ok h₁
  rw [(block as.reverse).frame h₂ x, writes s₁ s₂ hc]
  intro hmem
  obtain ⟨d, hd, hxd⟩ := mem_block_touches.mp hmem
  exact absurd hxd (by simpa using has d (List.mem_reverse.mp hd))

/-- A text assigned last is the final value. -/
theorem block_literal {cs : List (Script M V)} {m : M} {c : Script M V} {x : V} {t : String}
    {s s' : Env V} (h : (block cs).run m s = .ok s') (last : lastWriter x cs = some c)
    (writes : c.run = (assign x [.lit t]).run) : s' x = some t := by
  apply block_last h last
  intro s₁ s₂ hc
  rw [writes] at hc
  obtain ⟨a, ha, rfl⟩ := assign_ok hc
  simpa [Except.map] using ha.symm

/-- So is the output of a command. -/
theorem block_ask {cs : List (Script M V)} {m : M} {c : Script M V} {x : V} {f : M → String}
    {s s' : Env V} (h : (block cs).run m s = .ok s') (last : lastWriter x cs = some c)
    (writes : c.run = (assign x [.ask f]).run) : s' x = some (f m) := by
  apply block_last h last
  intro s₁ s₂ hc
  rw [writes] at hc
  obtain ⟨a, ha, rfl⟩ := assign_ok hc
  simpa [Except.map] using ha.symm

/-- A variable unset last is unset at the end. -/
theorem block_unset {cs : List (Script M V)} {m : M} {x : V} {s s' : Env V}
    (h : (block cs).run m s = .ok s') (last : lastWriter x cs = some (unset x)) : s' x = none := by
  apply block_last h last
  intro s₁ s₂ hc
  cases hc
  simp

end Script

end Shell
