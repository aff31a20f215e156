/-
`engine/glob.c`.

`glob` compares a text with a pattern as it reads the pattern. At a star it tries the rest of the
pattern from the end of the text backwards, and stops trying when the rest stops short of the end,
which it tells from a mismatch by returning `-1`. `glob_iff` says that nothing is lost by that.
The table of a bracket expression has a bit for each character below 128, so `Text` has no others.

* `globAt_outcome` — each of the three outcomes, for any pattern and text.
* `glob_bracket` — a bracket expression also takes the bracket that closes it.
-/

import MapnikPackaging.Patterns.Wildcards
import Mathlib.Data.Char
import Mathlib.Data.List.Basic

namespace MapnikPackaging

namespace Engine

open Wildcards

/-! ### The source -/

/-- The text from the bracket behind `[` up to and with the first closing one that is not the first
character, and what follows. -/
def closing : List Char → Option (List Char × List Char)
  | [] => none
  | first :: rest =>
    match rest.dropWhile (· ≠ ']') with
    | [] => none
    | _ :: after => some (first :: (rest.takeWhile (· ≠ ']') ++ [']']), after)

/-- The characters between `s` and `e` in `globchars`: a range where a dash has something behind
it. -/
def ranges : List Char → List (Char × Char)
  | a :: '-' :: b :: rest => (a, b) :: ranges rest
  | a :: rest => (a, a) :: ranges rest
  | [] => []

/-- A table of `BITLISTSIZE` bytes, by its bits. -/
abbrev BitList := Fin 128 → Bool

/-- The bits from `s[0]` to `s[2]`. -/
def setBits (b : BitList) (r : Char × Char) : BitList :=
  fun i => b i || (decide (r.1.toNat ≤ i) && decide (i ≤ r.2.toNat))

/-- The table of a bracket expression; no expression has `\0`. -/
def globchars (text : List Char) : BitList :=
  let neg := text.head? = some '^'
  let b := (ranges (if neg then text.tail else text)).foldl setBits fun _ => false
  fun i => decide (i ≠ 0) && (b i != decide neg)

/-- `CHECK_BIT`, inside of the table. -/
def checkBit (b : BitList) (c : Char) : Bool :=
  if inside : c.toNat < 128 then b ⟨c.toNat, inside⟩ else false

/-- The loop that backs up: what it returns, if it does. -/
def backUp (rest : List Char → ℤ) : List (List Char) → Option ℤ
  | [] => none
  | t :: ts => if rest t = 0 then some 0 else if rest t < 0 then some 1 else backUp rest ts

theorem closing_length {c text after : List Char} (h : closing c = some (text, after)) :
    after.length < c.length := by
  cases c with
  | nil => cases h
  | cons first rest =>
    rw [closing] at h
    split at h
    · cases h
    · next x tail split =>
      obtain ⟨-, rfl⟩ := Prod.mk.inj (Option.some.inj h)
      have shorter := (List.dropWhile_suffix (l := rest) (· ≠ ']')).length_le
      rw [split] at shorter
      exact Nat.lt_succ_of_lt shorter

/-- `glob` from two places on: `0` for a match, `-1` where the pattern stops short of the end. -/
def globAt : List Char → List Char → ℤ
  | [], s => if s = [] then 0 else -1
  | '?' :: c, s =>
    match s with
    | [] => 1
    | _ :: s => globAt c s
  | '[' :: c, s =>
    match _h : closing c with
    | none => 1
    | some (text, after) =>
      match s with
      | [] => 1
      | x :: s => if checkBit (globchars text) x then globAt after s else 1
  | '*' :: c, s => (backUp (fun t => globAt c t) s.tails.tail.reverse).getD (globAt c s)
  | '\\' :: c, s =>
    match c, s with
    | x :: c, y :: s => if y = x then globAt c s else 1
    | _, _ => 1
  | x :: c, s =>
    match s with
    | [] => 1
    | y :: s => if y = x then globAt c s else 1
termination_by c => c.length
decreasing_by
  all_goals simp only [List.length_cons]
  all_goals first | omega | exact Nat.lt_succ_of_lt (closing_length (by assumption))

/-- A string whose characters have a bit in the table. -/
structure Text where
  chars : List Char
  ascii : ∀ c ∈ chars, 0 < c.toNat ∧ c.toNat < 128

/-- The string of these characters. -/
def Text.ofChars (chars : List Char)
    (ascii : (chars.all fun c => decide (0 < c.toNat ∧ c.toNat < 128)) = true) : Text :=
  ⟨chars, fun c hc => of_decide_eq_true (List.all_eq_true.mp ascii c hc)⟩

/-- `glob(c, s)` -/
def glob (pattern s : Text) : ℤ := globAt pattern.chars s.chars

/-! ### The patterns -/

/-- What a pattern says; none where a bracket or a backslash is left open. -/
def tokens : List Char → Option (List (Token Char))
  | [] => some []
  | '?' :: c => (tokens c).map (.one (fun _ => true) :: ·)
  | '[' :: c =>
    match _h : closing c with
    | none => none
    | some (text, after) => (tokens after).map (.one (checkBit (globchars text)) :: ·)
  | '*' :: c => (tokens c).map (.star :: ·)
  | ['\\'] => none
  | '\\' :: x :: c => (tokens c).map (.one (fun y => y = x) :: ·)
  | x :: c => (tokens c).map (.one (fun y => y = x) :: ·)
termination_by c => c.length
decreasing_by
  all_goals simp only [List.length_cons]
  all_goals first | omega | exact Nat.lt_succ_of_lt (closing_length (by assumption))

/-- What the outcome of `glob` says. -/
structure Outcome (pattern s : List Char) (r : ℤ) : Prop where
  open_ : tokens pattern = none → r = 1
  matches_ : ∀ ts, tokens pattern = some ts → (r = 0 ↔ Matches ts s)
  /-- Where the pattern stops short of the end, it takes nothing that ends in the text. -/
  short : ∀ ts, tokens pattern = some ts → r < 0 → ∀ u, ¬ Matches ts (u ++ s)

section Glob

variable {pattern rest s t : List Char} {f : Char → Bool} {r : ℤ} {ts : List (Token Char)}

/-- A token that takes one character. -/
theorem outcome_one (taken : tokens pattern = (tokens rest).map (.one f :: ·))
    (later : ∀ s, Outcome rest s (globAt rest s)) : Outcome pattern s
      (match s with
        | [] => 1
        | c :: s => if f c then globAt rest s else 1) := by
  cases s with
  | nil =>
    refine ⟨fun _ => rfl, fun ts h => ?_, fun ts h short => by simp at short⟩
    obtain ⟨ts, -, rfl⟩ := Option.map_eq_some_iff.mp (taken.symm.trans h)
    simp [Matches]
  | cons c s =>
    have O := later s
    constructor
    · intro none
      rw [taken, Option.map_eq_none_iff] at none
      show (if f c then globAt rest s else 1) = 1
      rw [O.open_ none]
      split <;> rfl
    · intro ts h
      obtain ⟨ts, hts, rfl⟩ := Option.map_eq_some_iff.mp (taken.symm.trans h)
      show (if f c then globAt rest s else 1) = 0 ↔ Matches (.one f :: ts) (c :: s)
      by_cases accepts : f c = true
      · simp [Matches, accepts, O.matches_ ts hts]
      · simp [Matches, accepts]
    · intro ts h short u matched
      obtain ⟨ts, hts, rfl⟩ := Option.map_eq_some_iff.mp (taken.symm.trans h)
      have short : (if f c then globAt rest s else 1) < 0 := short
      split at short
      · obtain ⟨d, v, same, -, matched⟩ := matches_one.mp matched
        -- the character taken is in front of `s`
        rcases u with _ | ⟨e, u⟩
        · obtain ⟨-, rfl⟩ := List.cons.inj same
          exact O.short ts hts short [] matched
        · obtain ⟨-, rfl⟩ := List.cons.inj same
          have moved : Matches ts ((u ++ [c]) ++ s) := by simpa using matched
          exact O.short ts hts short _ moved
      · omega

/-- **The loop at a star**, over suffixes from the shortest on. -/
theorem backUp_spec {tails : List (List Char)} (hts : tokens rest = some ts)
    (later : ∀ s, Outcome rest s (globAt rest s)) (longer : tails.Pairwise fun a b => a <:+ b) :
    (backUp (fun t => globAt rest t) tails = some 0 ∧ ∃ t ∈ tails, Matches ts t) ∨
    (backUp (fun t => globAt rest t) tails = some 1 ∧ (∀ t ∈ tails, ¬ Matches ts t) ∧
      ∃ t ∈ tails, ∀ u, ¬ Matches ts (u ++ t)) ∨
    (backUp (fun t => globAt rest t) tails = none ∧ ∀ t ∈ tails, ¬ Matches ts t) := by
  induction tails with
  | nil => exact .inr (.inr ⟨rfl, by simp⟩)
  | cons t tails ih =>
    obtain ⟨above, longer⟩ := List.pairwise_cons.mp longer
    have O := later t
    rw [backUp]
    by_cases zero : globAt rest t = 0
    · exact .inl ⟨if_pos zero, t, by simp, (O.matches_ ts hts).mp zero⟩
    · have no : ¬ Matches ts t := fun matched => zero ((O.matches_ ts hts).mpr matched)
      rw [if_neg zero]
      by_cases short : globAt rest t < 0
      · have none := O.short ts hts short
        refine .inr (.inl ⟨if_pos short, fun t' ht' => ?_, t, by simp, none⟩)
        rcases List.mem_cons.mp ht' with rfl | ht'
        · exact no
        · obtain ⟨u, rfl⟩ := above t' ht'
          exact none u
      · rw [if_neg short]
        rcases ih longer with ⟨ran, t', ht', matched⟩ | ⟨ran, none, t', ht', ends⟩ | ⟨ran, none⟩
        · exact .inl ⟨ran, t', List.mem_cons_of_mem t ht', matched⟩
        · exact .inr (.inl ⟨ran, List.forall_mem_cons.mpr ⟨no, none⟩, t',
            List.mem_cons_of_mem t ht', ends⟩)
        · exact .inr (.inr ⟨ran, List.forall_mem_cons.mpr ⟨no, none⟩⟩)

/-- The suffixes that the loop tries. -/
theorem mem_tried : t ∈ s.tails.tail.reverse ↔ t <:+ s ∧ t ≠ s := by
  cases s with
  | nil => simp
  | cons c s =>
    rw [List.mem_reverse, List.tails_cons, List.tail_cons, List.mem_tails, List.suffix_cons_iff]
    constructor
    · intro h
      refine ⟨.inr h, ?_⟩
      rintro rfl
      have : s.length + 1 ≤ s.length := h.length_le
      omega
    · rintro ⟨rfl | h, differ⟩
      · exact absurd rfl differ
      · exact h

theorem tried_longer (s : List Char) :
    s.tails.tail.reverse.Pairwise fun a b => a <:+ b := by
  rw [List.pairwise_reverse]
  have all : s.tails.Pairwise fun a b => b <:+ a := by
    induction s with
    | nil => simp
    | cons c s ih =>
      rw [List.tails_cons, List.pairwise_cons]
      refine ⟨fun t ht => ?_, ih⟩
      exact ((List.mem_tails t s).mp ht).trans (List.suffix_cons c s)
  exact all.sublist (List.tail_sublist _)

/-- A star. -/
theorem outcome_star (later : ∀ s, Outcome rest s (globAt rest s)) :
    Outcome ('*' :: rest) s (globAt ('*' :: rest) s) := by
  have taken : tokens ('*' :: rest) = (tokens rest).map (.star :: ·) := by rw [tokens]
  have run : globAt ('*' :: rest) s
      = (backUp (fun t => globAt rest t) s.tails.tail.reverse).getD (globAt rest s) := by rw [globAt]
  cases hts : tokens rest with
  | none =>
    have one : ∀ t, globAt rest t = 1 := fun t => (later t).open_ hts
    have loop : ∀ ts : List (List Char), backUp (fun t => globAt rest t) ts = none := by
      intro ts
      induction ts with
      | nil => rfl
      | cons t ts ih =>
        rw [backUp, one t, if_neg (by decide), if_neg (by decide)]
        exact ih
    refine ⟨fun _ => by rw [run, loop, Option.getD_none, one], fun ts h => ?_, fun ts h => ?_⟩ <;>
    · rw [taken, hts] at h
      cases h
  | some ts =>
    have only : ∀ ts', tokens ('*' :: rest) = some ts' → .star :: ts = ts' := fun ts' h => by
      rw [taken, hts] at h
      exact Option.some.inj h
    have split : ∀ t, t <:+ s → t ∈ s.tails.tail.reverse ∨ t = s := fun t ht => by
      by_cases same : t = s
      · exact .inr same
      · exact .inl (mem_tried.mpr ⟨ht, same⟩)
    have O := later s
    refine ⟨fun none => ?_, fun ts' h => ?_, fun ts' h short => ?_⟩
    · rw [taken, hts] at none
      cases none
    · obtain rfl := only ts' h
      rw [run]
      rcases backUp_spec hts later (tried_longer s) with
        ⟨ran, t, ht, matched⟩ | ⟨ran, none, t, ht, ends⟩ | ⟨ran, none⟩
      · rw [ran]
        exact iff_of_true rfl ⟨t, (mem_tried.mp ht).1, matched⟩
      · rw [ran]
        apply iff_of_false (by simp)
        rintro ⟨t', ht', matched⟩
        rcases split t' ht' with tried | rfl
        · exact none t' tried matched
        · obtain ⟨u, hu⟩ := (mem_tried.mp ht).1
          rw [← hu] at matched
          exact ends u matched
      · rw [ran, Option.getD_none, O.matches_ ts hts]
        refine ⟨fun matched => ⟨s, List.suffix_rfl, matched⟩, ?_⟩
        rintro ⟨t, ht, matched⟩
        rcases split t ht with tried | rfl
        · exact absurd matched (none t tried)
        · exact matched
    · obtain rfl := only ts' h
      rw [run] at short
      rcases backUp_spec hts later (tried_longer s) with
        ⟨ran, -⟩ | ⟨ran, -⟩ | ⟨ran, none⟩ <;> rw [ran] at short
      · simp at short
      · simp at short
      · rw [Option.getD_none] at short
        have ends := O.short ts hts short
        rintro u ⟨t, ht, matched⟩
        -- the suffix lies within `s`, or has `s` at its end
        rcases List.suffix_or_suffix_of_suffix ht (List.suffix_append u s) with within | ⟨v, rfl⟩
        · rcases split t within with tried | rfl
          · exact none t tried matched
          · exact ends [] matched
        · exact ends v matched

/-- A pattern that is left open. -/
theorem outcome_open (open_ : tokens pattern = none) (run : r = 1) : Outcome pattern s r where
  open_ _ := run
  matches_ ts h := by
    rw [open_] at h
    cases h
  short ts h := by
    rw [open_] at h
    cases h

theorem outcome_nil (s : List Char) : Outcome [] s (globAt [] s) := by
  have taken : ∀ {ts}, tokens [] = some ts → ts = [] := fun h => by
    rw [tokens] at h
    exact (Option.some.inj h).symm
  rw [globAt]
  refine ⟨fun none => ?_, fun ts h => ?_, fun ts h short => ?_⟩
  · rw [tokens] at none
    cases none
  · rw [taken h, matches_nil]
    by_cases empty : s = []
    · simp [empty]
    · simp [empty]
  · rw [taken h]
    intro u matched
    have empty : s = [] := (List.append_eq_nil_iff.mp matched).2
    rw [if_pos empty] at short
    omega

theorem globAt_quote (x : Char) (rest s : List Char) : globAt ('\\' :: x :: rest) s =
    match s with
    | [] => 1
    | c :: s => if decide (c = x) then globAt rest s else 1 := by
  cases s with
  | nil => rw [globAt]; simp
  | cons c s => rw [globAt]; simp

/-- A character without a meaning of its own. -/
theorem tokens_plain {x : Char} (plain : x ∉ ['?', '*', '[', '\\']) :
    tokens (x :: rest) = (tokens rest).map (.one (fun c => decide (c = x)) :: ·) := by
  simp only [List.mem_cons, List.not_mem_nil, or_false, not_or] at plain
  rw [tokens] <;> simp [plain]

theorem globAt_plain {x : Char} (plain : x ∉ ['?', '*', '[', '\\']) (s : List Char) :
    globAt (x :: rest) s =
      match s with
      | [] => 1
      | c :: s => if decide (c = x) then globAt rest s else 1 := by
  simp only [List.mem_cons, List.not_mem_nil, or_false, not_or] at plain
  cases s <;> rw [globAt] <;> simp [plain]

/-- **The outcomes of `glob`**, for any pattern and text. -/
theorem globAt_outcome (pattern s : List Char) : Outcome pattern s (globAt pattern s) := by
  induction hn : pattern.length using Nat.strong_induction_on generalizing pattern s with
  | _ n ih =>
    subst hn
    have later : ∀ rest : List Char, rest.length < pattern.length →
        ∀ s, Outcome rest s (globAt rest s) := fun rest shorter s => ih _ shorter rest s rfl
    have single : ∀ (rest : List Char) (f : Char → Bool), rest.length < pattern.length →
        tokens pattern = (tokens rest).map (.one f :: ·) →
        globAt pattern s = (match s with | [] => 1 | c :: s => if f c then globAt rest s else 1) →
        Outcome pattern s (globAt pattern s) := fun rest f shorter taken run => by
      rw [run]
      exact outcome_one taken (later _ shorter)
    rcases pattern with _ | ⟨x, rest⟩
    · exact outcome_nil s
    · have shorter : rest.length < (x :: rest).length := Nat.lt_succ_self _
      by_cases any : x = '?'
      · subst any
        refine single rest (fun _ => true) shorter (by rw [tokens]) ?_
        cases s with
        | nil => rw [globAt]
        | cons c s =>
          rw [globAt]
          rfl
      by_cases star : x = '*'
      · subst star
        exact outcome_star (later rest shorter)
      by_cases bracket : x = '['
      · subst bracket
        cases closed : closing rest with
        | none =>
          refine outcome_open ?_ ?_
          · rw [tokens]
            split
            · rfl
            · next h => rw [closed] at h; cases h
          · rw [globAt]
            split
            · rfl
            · next h => rw [closed] at h; cases h
        | some found =>
          obtain ⟨text, after⟩ := found
          refine single after (checkBit (globchars text))
            ((closing_length closed).trans shorter) ?_ ?_
          · rw [tokens]
            split
            · next h => rw [closed] at h; cases h
            · next h =>
              rw [closed] at h
              obtain ⟨rfl, rfl⟩ := Prod.mk.inj (Option.some.inj h)
              rfl
          · rw [globAt]
            split
            · next h => rw [closed] at h; cases h
            · next h =>
              rw [closed] at h
              obtain ⟨rfl, rfl⟩ := Prod.mk.inj (Option.some.inj h)
              rfl
      by_cases quote : x = '\\'
      · subst quote
        rcases rest with _ | ⟨y, rest⟩
        · exact outcome_open (by rw [tokens]) (by rw [globAt]; simp)
        · exact single rest (fun c => c = y) (Nat.lt_succ_of_lt (Nat.lt_succ_self _))
            (by rw [tokens]) (globAt_quote y rest s)
      · have plain : x ∉ ['?', '*', '[', '\\'] := by simp [any, star, bracket, quote]
        exact single rest _ shorter (tokens_plain plain) (globAt_plain plain s)

/-- **`glob` matches** exactly where the pattern is well formed and takes the text. -/
theorem glob_iff (pattern s : Text) :
    glob pattern s = 0 ↔ ∃ ts, tokens pattern.chars = some ts ∧ Matches ts s.chars := by
  have O := globAt_outcome pattern.chars s.chars
  unfold glob
  cases hts : tokens pattern.chars with
  | none => simp [O.open_ hts]
  | some ts => simp [O.matches_ ts hts]

/-! ### Brackets -/

/-- What the characters in a bracket say. -/
def InRanges (m : List Char) (c : Char) : Prop := ∃ r ∈ ranges m, r.1 ≤ c ∧ c ≤ r.2

theorem closing_append {first : Char} {m : List Char} (flat : ']' ∉ m) (rest : List Char) :
    closing (first :: (m ++ ']' :: rest)) = some (first :: (m ++ [']']), rest) := by
  have ordinary : ∀ c ∈ m, decide (c ≠ ']') = true := fun c hc =>
    decide_eq_true fun same => flat (same ▸ hc)
  rw [closing, List.dropWhile_append_of_pos ordinary, List.takeWhile_append_of_pos ordinary]
  simp

/-- The bracket that closes is one of the characters. -/
theorem ranges_closing {m : List Char} (dash : m.getLast? ≠ some '-') :
    ranges (m ++ [']']) = ranges m ++ [(']', ']')] := by
  fun_induction ranges m with
  | case1 a b rest ih =>
    rw [List.cons_append, List.cons_append, List.cons_append, ranges]
    rcases rest with _ | ⟨c, rest⟩
    · rfl
    · rw [ih (by simpa using dash), List.cons_append]
  | case2 a rest single ih =>
    rcases rest with _ | ⟨b, rest⟩
    · rfl
    · have other : b ≠ '-' ∨ rest = [] := by
        by_contra both
        push Not at both
        obtain ⟨c, tail, rfl⟩ := List.exists_cons_of_ne_nil both.2
        exact single c tail (by rw [both.1])
      have differ : b ≠ '-' := by
        rcases other with differ | rfl
        · exact differ
        · rintro rfl
          exact dash rfl
      have later := ih (by simpa using dash)
      rw [List.cons_append, List.cons_append] at *
      rw [ranges, later, List.cons_append]
      intro _ _ same
      exact differ (List.cons.inj same).1
  | case3 => rfl

theorem inRanges_closing {m : List Char} {c : Char} (dash : m.getLast? ≠ some '-') :
    InRanges (m ++ [']']) c ↔ InRanges m c ∨ c = ']' := by
  rw [InRanges, ranges_closing dash]
  constructor
  · rintro ⟨r, hr, low, high⟩
    rcases List.mem_append.mp hr with hr | hr
    · exact .inl ⟨r, hr, low, high⟩
    · obtain rfl := List.mem_singleton.mp hr
      exact .inr (le_antisymm high low)
  · rintro (⟨r, hr, inside⟩ | rfl)
    · exact ⟨r, List.mem_append_left _ hr, inside⟩
    · exact ⟨(']', ']'), by simp, le_refl _, le_refl _⟩

theorem foldl_setBits (l : List (Char × Char)) (b : BitList) (i : Fin 128) :
    l.foldl setBits b i = true ↔ b i = true ∨ ∃ r ∈ l, r.1.toNat ≤ i ∧ i ≤ r.2.toNat := by
  induction l generalizing b with
  | nil => simp
  | cons r l ih =>
    rw [List.foldl_cons, ih]
    simp [setBits, or_assoc]

/-- The bit of a character that has one. -/
theorem checkBit_globchars {text : List Char} {c : Char} (ascii : 0 < c.toNat ∧ c.toNat < 128) :
    checkBit (globchars text) c = true ↔
      (InRanges (if text.head? = some '^' then text.tail else text) c ↔ text.head? ≠ some '^') := by
  have set : ∀ m : List Char, (ranges m).foldl setBits (fun _ => false) ⟨c.toNat, ascii.2⟩ = true ↔
      InRanges m c := by
    intro m
    rw [foldl_setBits]
    simp only [Bool.false_eq_true, false_or]
    rfl
  have first : (⟨c.toNat, ascii.2⟩ : Fin 128) ≠ 0 :=
    fun same => Nat.ne_of_gt ascii.1 (congrArg Fin.val same)
  rw [checkBit, dif_pos ascii.2, globchars, ← set]
  simp only [decide_eq_true first, Bool.true_and]
  by_cases neg : text.head? = some '^' <;> simp [neg]

theorem globchars_iff {first c : Char} {m : List Char} (ascii : 0 < c.toNat ∧ c.toNat < 128)
    (caret : first ≠ '^') :
    checkBit (globchars (first :: m)) c = true ↔ InRanges (first :: m) c := by
  rw [checkBit_globchars ascii]
  simp [caret]

theorem globchars_not {c : Char} {m : List Char} (ascii : 0 < c.toNat ∧ c.toNat < 128) :
    checkBit (globchars ('^' :: m)) c = true ↔ ¬ InRanges m c := by
  rw [checkBit_globchars ascii]
  simp

/-- **A bracket expression** takes what it says and, besides, the bracket that closes it. -/
theorem glob_bracket (pattern rest text s : Text) {first c : Char} {m : List Char}
    (bracket : pattern.chars = '[' :: first :: (m ++ ']' :: rest.chars)) (flat : ']' ∉ m)
    (behind : text.chars = c :: s.chars) :
    (first ≠ '^' → (first :: m).getLast? ≠ some '-' →
      (glob pattern text = 0 ↔ (InRanges (first :: m) c ∨ c = ']') ∧ glob rest s = 0)) ∧
    (first = '^' → m.getLast? ≠ some '-' →
      (glob pattern text = 0 ↔ ¬ (InRanges m c ∨ c = ']') ∧ glob rest s = 0)) := by
  have ascii := text.ascii c (behind ▸ List.mem_cons_self)
  have run : glob pattern text
      = if checkBit (globchars (first :: (m ++ [']']))) c then glob rest s else 1 := by
    unfold glob
    rw [bracket, behind, globAt]
    split
    · next h => rw [closing_append flat] at h; cases h
    · next h =>
      rw [closing_append flat] at h
      obtain ⟨rfl, rfl⟩ := Prod.mk.inj (Option.some.inj h)
      rfl
  have outcome : glob pattern text = 0 ↔
      checkBit (globchars (first :: (m ++ [']']))) c = true ∧ glob rest s = 0 := by
    rw [run]
    split
    · next taken => simp [taken]
    · next other => simp [other]
  refine ⟨fun caret dash => ?_, fun caret dash => ?_⟩
  · rw [outcome, globchars_iff ascii caret, ← List.cons_append, inRanges_closing dash]
  · rw [outcome, caret, globchars_not ascii, inRanges_closing dash]

/-- `[a-z]` takes `]`. -/
theorem glob_bracket_az :
    glob (.ofChars "[a-z]".toList (by decide)) (.ofChars "]".toList (by decide)) = 0 := by
  let empty := Text.ofChars [] rfl
  have nothing : glob empty empty = 0 := by
    show globAt [] [] = 0
    rw [globAt]
    rfl
  have flat : ']' ∉ "-z".toList := by decide
  have taken := (glob_bracket (.ofChars "[a-z]".toList (by decide)) empty
    (.ofChars "]".toList (by decide)) empty rfl flat rfl).1 (by decide) (by decide)
  exact taken.mpr ⟨.inr rfl, nothing⟩

end Glob

end Engine

end MapnikPackaging
