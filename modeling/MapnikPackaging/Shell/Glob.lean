/-
Patterns of the shell.

`pattern` reads a pattern: `*`, `?`, bracket expressions and backslashes. `globMatch` matches all
of a text, and `removeShortest` is `${text#pattern}`.

* `pieces_of_plain` — text without operators is read as it stands.
* `globMatch_iff` — the matcher decides what a pattern takes.
* `globMatch_lits` — characters match just themselves.
* `globMatch_self`, `count_le_of_globMatch` — stars and question marks match the text they stand in,
  and no text with fewer of the other characters.
* `leaves_removeShortest` — what `${text#pattern}` leaves, without saying how it is found.
* `removeShortest_star` — with a star in front, something is taken away exactly when the rest of
  the pattern matches a part of the text and not the empty one.
-/

import MapnikPackaging.Patterns.Wildcards

namespace Shell

open Wildcards

/-! ### Syntax -/

/-- A member of a bracket expression. -/
inductive Item where
  | range (a b : Char)
  | named (cls : List Char)
deriving DecidableEq, Repr

/-- The pieces of a pattern. -/
inductive Piece where
  | lit (c : Char)
  | any | star
  | set (negated : Bool) (items : List Item)
deriving DecidableEq, Repr

/-- The name of a class up to `:]`, and what follows. -/
def className : List Char → Option (List Char × List Char)
  | ':' :: ']' :: rest => some ([], rest)
  | c :: cs => (className cs).map fun (name, rest) => (c :: name, rest)
  | [] => none

/-- A member that begins with the character `a`: a range if a dash follows that is not the last
of the expression. A range without an end spoils the expression. -/
def rangeFrom (a : Char) : List Char → Option (Item × List Char)
  | ['-'] => none
  | ['-', '\\'] => none
  | '-' :: '\\' :: b :: rest => some (.range a b, rest)
  | '-' :: b :: rest => if b = ']' then some (.range a a, '-' :: ']' :: rest)
      else some (.range a b, rest)
  | rest => some (.range a a, rest)

/-- One member of a bracket expression; a backslash at the end spoils it. -/
def member : List Char → Option (Item × List Char)
  | '[' :: ':' :: cs =>
    match className cs with
    | some (name, rest) => some (.named name, rest)
    | none => rangeFrom '[' (':' :: cs)
  | '[' :: '=' :: a :: '=' :: ']' :: rest => rangeFrom a rest
  | '[' :: '.' :: a :: '.' :: ']' :: rest => rangeFrom a rest
  | ['\\'] => none
  | '\\' :: a :: rest => rangeFrom a rest
  | a :: rest => rangeFrom a rest
  | [] => none

/-- The members up to the closing bracket, and what follows it, if there is one; the first member
may be a closing bracket itself. -/
def members : ℕ → Bool → List Char → Option (Option (List Item × List Char))
  | 0, _, _ => some none
  | _ + 1, _, [] => some none
  | n + 1, first, c :: cs =>
    if !first && c = ']' then some (some ([], cs))
    else do
      let (item, rest) ← member (c :: cs)
      let closed ← members n false rest
      return closed.map fun (items, rest) => (item :: items, rest)

/-- What follows an opening bracket, if the expression is closed. -/
def bracket (cs : List Char) : Option (Option (Piece × List Char)) :=
  let negated := cs.head? = some '!' || cs.head? = some '^'
  let cs := if negated then cs.drop 1 else cs
  (members cs.length true cs).map fun closed =>
    closed.map fun (items, rest) => (.set negated items, rest)

/-- A piece that matches nothing. -/
def Piece.never : Piece := .set false []

/-- The piece that begins with a character, and what follows it. A bracket that is not closed
stands for itself, unless its expression is spoiled; so does a backslash at the end, unless a run
of stars and question marks that begins with a star is in front of it. -/
def nextPiece (run : Bool) (c : Char) (cs : List Char) : Piece × List Char :=
  if c = '*' then (.star, cs)
  else if c = '?' then (.any, cs)
  else if c = '\\' then
    match cs with
    | d :: ds => (.lit d, ds)
    | [] => (if run then .never else .lit '\\', [])
  else if c = '[' then
    match bracket cs with
    | some (some closed) => closed
    | some none => (.lit '[', cs)
    | none => (.never, [])
  else (.lit c, cs)

/-- Whether the run goes on with this character. -/
def runsOn (run : Bool) (c : Char) : Bool := c = '*' || (run && c = '?')

/-- Read at most so many pieces. -/
def pieces : ℕ → Bool → List Char → List Piece
  | 0, _, _ => []
  | _ + 1, _, [] => []
  | n + 1, run, c :: cs =>
    (nextPiece run c cs).1 :: pieces n (runsOn run c) (nextPiece run c cs).2

/-- The pattern that a text is when it is not quoted. -/
def pattern (text : List Char) : List Piece := pieces text.length false text

/-- The pattern that it is behind a star. -/
def patternBehind (text : List Char) : List Piece := pieces text.length true text

theorem pattern_star (text : List Char) :
    pattern ('*' :: text) = .star :: patternBehind text := rfl

/-- The characters that make a word a pattern. -/
def wild : List Char := ['*', '?', '\\', '[']

/-- No character of the text makes a pattern of it. -/
def Plain (text : List Char) : Prop := ∀ c ∈ text, c ∉ wild

instance (text : List Char) : Decidable (Plain text) :=
  List.decidableBAll (fun c => c ∉ wild) text

/-! ### Matching -/

/-- The classes of the C locale. -/
def inClass (cls : List Char) (c : Char) : Bool :=
  match String.ofList cls with
  | "alpha" => c.isAlpha
  | "digit" => c.isDigit
  | "alnum" => c.isAlphanum
  | "upper" => c.isUpper
  | "lower" => c.isLower
  | "word" => c.isAlphanum || c = '_'
  | "blank" => c = ' ' || c = '\t'
  | "space" => c = ' ' || ('\t' ≤ c && c ≤ '\r')
  | "xdigit" => c.isDigit || ('a' ≤ c && c ≤ 'f') || ('A' ≤ c && c ≤ 'F')
  | "punct" => '!' ≤ c && c ≤ '~' && !c.isAlphanum
  | "graph" => '!' ≤ c && c ≤ '~'
  | "print" => ' ' ≤ c && c ≤ '~'
  | "cntrl" => c < ' ' || c.toNat = 127
  | _ => false

def Item.has (c : Char) : Item → Bool
  | range a b => a ≤ c && c ≤ b
  | named cls => inClass cls c

/-- Whether a piece other than a star matches a character. -/
def Piece.accepts (c : Char) : Piece → Bool
  | lit d => c = d
  | any => true
  | star => false
  | set negated items => items.any (Item.has c) != negated

/-- Whether the pattern matches all of a text. -/
def globMatch : List Piece → List Char → Bool
  | [], s => s.isEmpty
  | .star :: p, s => s.tails.any (globMatch p)
  | _ :: _, [] => false
  | x :: p, c :: s => x.accepts c && globMatch p s

/-- A piece as a token. -/
def Piece.token : Piece → Token Char
  | star => .star
  | x => .one fun c => x.accepts c

/-- **The matcher decides** what a pattern takes. -/
theorem globMatch_iff (p : List Piece) (s : List Char) :
    globMatch p s = true ↔ Matches (p.map Piece.token) s := by
  induction p generalizing s with
  | nil => simp [globMatch, matches_nil]
  | cons x p ih =>
    cases x with
    | star => simp [globMatch, Piece.token, matches_star, List.any_eq_true, List.mem_tails, ih]
    | lit _ | any | set _ _ =>
      cases s with
      | nil => simp [globMatch, Piece.token, Matches]
      | cons c s => simp [globMatch, Piece.token, Matches, ih]

/-- `${text#pattern}`: without the shortest prefix that matches. -/
def removeShortest (p : List Piece) (s : List Char) : List Char :=
  match (List.range (s.length + 1)).find? fun k => globMatch p (s.take k) with
  | some k => s.drop k
  | none => s

/-- A quoted text as a pattern. -/
def quoted (text : List Char) : List Piece := text.map .lit

theorem globMatch_lits (w s : List Char) : globMatch (quoted w) s = true ↔ s = w := by
  induction w generalizing s with
  | nil => simp [quoted, globMatch, List.isEmpty_iff]
  | cons d w ih =>
    cases s with
    | nil => simp [quoted, globMatch]
    | cons c s =>
      have := ih s
      simp only [quoted] at this
      simp [quoted, globMatch, Piece.accepts, this]

theorem globMatch_star (p : List Piece) (s : List Char) :
    globMatch (.star :: p) s = true ↔ ∃ t, t <:+ s ∧ globMatch p t = true := by
  simp only [globMatch_iff]
  exact matches_star

/-- The piece that a character is without a bracket or a backslash. -/
def pieceOf (c : Char) : Piece := if c = '*' then .star else if c = '?' then .any else .lit c

theorem nextPiece_of_plain (run : Bool) {c : Char} (cs : List Char) (escape : c ≠ '\\')
    (opening : c ≠ '[') : nextPiece run c cs = (pieceOf c, cs) := by
  unfold nextPiece pieceOf
  rw [if_neg escape, if_neg opening]
  split
  · rfl
  · split <;> rfl

/-- **Text without operators** is read as it stands. -/
theorem pieces_of_plain {text : List Char} (plain : Plain text) (run : Bool) :
    pieces text.length run text = quoted text := by
  induction text generalizing run with
  | nil => rfl
  | cons c cs ih =>
    have ordinary := plain c List.mem_cons_self
    simp only [wild, List.mem_cons, List.not_mem_nil, or_false, not_or] at ordinary
    obtain ⟨star, any, escape, opening⟩ := ordinary
    rw [List.length_cons, pieces, nextPiece_of_plain run cs escape opening,
      ih (fun d hd => plain d (List.mem_cons_of_mem _ hd)), pieceOf, if_neg star, if_neg any]
    rfl

/-- Wherever stars and question marks stand in a text, as a pattern it matches itself. -/
theorem globMatch_self (text : List Char) : globMatch (text.map pieceOf) text = true := by
  induction text with
  | nil => rfl
  | cons c cs ih =>
    rw [List.map_cons, pieceOf]
    split
    · exact (globMatch_star _ _).mpr ⟨cs, List.suffix_cons c cs, ih⟩
    · split <;> simp [globMatch, Piece.accepts, ih]

/-- A text that matches has every character as often as the pattern has it. -/
theorem count_le_of_globMatch {p : List Piece} {s : List Char} (matched : globMatch p s = true)
    (c : Char) : p.count (.lit c) ≤ s.count c := by
  induction p generalizing s with
  | nil => exact Nat.zero_le _
  | cons x p ih =>
    cases x with
    | star =>
      obtain ⟨t, ht, matched⟩ := (globMatch_star p s).mp matched
      rw [List.count_cons_of_ne (by simp)]
      exact (ih matched).trans (ht.sublist.count_le c)
    | lit d =>
      cases s with
      | nil => simp [globMatch] at matched
      | cons e s =>
        simp only [globMatch, Piece.accepts, Bool.and_eq_true, decide_eq_true_eq] at matched
        obtain ⟨rfl, matched⟩ := matched
        have rest := ih matched
        by_cases same : e = c
        · subst same
          simpa using rest
        · rwa [List.count_cons_of_ne (by simpa using same), List.count_cons_of_ne same]
    | any | set _ _ =>
      cases s with
      | nil => simp [globMatch] at matched
      | cons e s =>
        simp only [globMatch, Bool.and_eq_true] at matched
        rw [List.count_cons_of_ne (by simp)]
        exact (ih matched.2).trans (List.sublist_cons_self e s |>.count_le c)

theorem count_map_pieceOf {c : Char} (star : c ≠ '*') (any : c ≠ '?') (text : List Char) :
    (text.map pieceOf).count (.lit c) = text.count c := by
  induction text with
  | nil => rfl
  | cons d text ih =>
    have same : pieceOf d = .lit c ↔ d = c := by
      unfold pieceOf
      split
      · rename_i h
        exact iff_of_false (by simp) (h ▸ star.symm)
      · split
        · rename_i h
          exact iff_of_false (by simp) (h ▸ any.symm)
        · exact ⟨Piece.lit.inj, congrArg Piece.lit⟩
    rw [List.map_cons, List.count_cons, List.count_cons, ih]
    simp [same]

/-! ### What is left -/

/-- `r` is what follows the shortest prefix of `s` that matches, or all of `s` without one. -/
def Leaves (p : List Piece) (s r : List Char) : Prop :=
  (∃ u, u ++ r = s ∧ globMatch p u = true ∧
      ∀ v w, v ++ w = s → globMatch p v = true → u.length ≤ v.length) ∨
    (r = s ∧ ∀ v w, v ++ w = s → globMatch p v = false)

/-- **What `${text#pattern}` leaves.** -/
theorem leaves_removeShortest (p : List Piece) (s : List Char) : Leaves p s (removeShortest p s) := by
  have prefixes : ∀ {v w}, v ++ w = s → v.length < s.length + 1 ∧ s.take v.length = v := by
    rintro v w rfl
    simp only [List.length_append, List.take_left', and_true]
    omega
  unfold removeShortest
  cases found : (List.range (s.length + 1)).find? fun k => globMatch p (s.take k) with
  | some k =>
    left
    have matched : globMatch p (s.take k) = true := by simpa using List.find?_some found
    have bound : k < s.length + 1 := List.mem_range.mp (List.mem_of_find?_eq_some found)
    refine ⟨s.take k, List.take_append_drop k s, matched, fun v w hv matches_v => ?_⟩
    obtain ⟨short, taken⟩ := prefixes hv
    have least := (List.find?_range_eq_some.mp found).2.2
    by_contra longer
    rw [List.length_take, not_le] at longer
    have := least v.length (by omega)
    simp [taken, matches_v] at this
  | none =>
    right
    refine ⟨rfl, fun v w hv => ?_⟩
    obtain ⟨short, taken⟩ := prefixes hv
    have := List.find?_eq_none.mp found v.length (List.mem_range.mpr short)
    simpa [taken] using this

/-- **A pattern behind a star** takes something away exactly when it matches a part of the text
and not the empty one. -/
theorem removeShortest_star (p : List Piece) (s : List Char) : removeShortest (.star :: p) s ≠ s ↔
    ¬ globMatch p [] = true ∧ ∃ t, t <:+: s ∧ globMatch p t = true := by
  have nothing : globMatch (.star :: p) [] = true ↔ globMatch p [] = true := by
    simp [globMatch]
  rcases leaves_removeShortest (.star :: p) s with ⟨u, split, matched, least⟩ | ⟨same, none⟩
  · obtain ⟨t, suffix, part⟩ := (globMatch_star p u).mp matched
    have occurs : t <:+: s := by
      rw [← split]
      exact suffix.isInfix.trans (List.prefix_append u _).isInfix
    constructor
    · intro less
      refine ⟨fun empty => less ?_, t, occurs, part⟩
      have gone := least [] s rfl (nothing.mpr empty)
      rw [List.length_nil, Nat.le_zero, List.length_eq_zero_iff] at gone
      rwa [gone] at split
    · rintro ⟨some, -⟩ same
      rw [same] at split
      rw [List.append_left_eq_self.mp split] at matched
      exact some (nothing.mp matched)
  · apply iff_of_false (not_not.mpr same)
    rintro ⟨-, t, ⟨a, b, split⟩, part⟩
    have matched := (globMatch_star p (a ++ t)).mpr ⟨t, List.suffix_append a t, part⟩
    rw [none (a ++ t) b split] at matched
    cases matched

/-- So a quoted text is taken away exactly when it occurs. -/
theorem removeShortest_quoted {w : List Char} (nonempty : w ≠ []) (s : List Char) :
    removeShortest (.star :: quoted w) s ≠ s ↔ w <:+: s := by
  rw [removeShortest_star]
  simp only [globMatch_lits]
  constructor
  · rintro ⟨-, t, occurs, rfl⟩
    exact occurs
  · exact fun occurs => ⟨nonempty.symm, w, occurs, rfl⟩

end Shell
