/-
Patterns with the extended forms.

On the right of `==` in `[[ ]]` a pattern is read with `?(list)`, `*(list)`, `+(list)`, `@(list)`
and `!(list)`, whatever `extglob` says; `${text#pattern}` and pathname expansion do without them.
A group that is not closed stands for itself, with all that follows it.

* `matches_ofPieces` — without a group the match is the one of plain patterns.
* `read_of_flat` — a flat text is read a piece a character.
-/

import MapnikPackaging.Shell.Glob

namespace Shell

/-! ### Syntax -/

/-- The operators, each in front of a list of alternatives. -/
inductive Operator where
  | zeroOrOne | zeroOrMore | oneOrMore | exactlyOne | noneOf
deriving DecidableEq, Repr

def operator : Char → Option Operator
  | '?' => some .zeroOrOne
  | '*' => some .zeroOrMore
  | '+' => some .oneOrMore
  | '@' => some .exactlyOne
  | '!' => some .noneOf
  | _ => none

/-- An extended pattern; `either` occurs in the body of a group. -/
inductive Extended where
  | done
  | piece (x : Piece) (rest : Extended)
  | group (op : Operator) (body rest : Extended)
  | either (p q : Extended)
deriving DecidableEq, Repr

/-- With more text in front of the first alternative. -/
def inFront (cs : List Char) : List (List Char) × List Char → List (List Char) × List Char
  | (first :: more, rest) => ((cs ++ first) :: more, rest)
  | ([], rest) => ([cs], rest)

/-- The alternatives up to the parenthesis that closes the group, and what follows it. Inside of
a bracket expression and behind a backslash nothing is an operator. -/
def alternatives : ℕ → ℕ → List Char → Option (List (List Char) × List Char)
  | 0, _, _ => none
  | _ + 1, _, [] => none
  | n + 1, depth, c :: cs =>
    if c = '\\' then (alternatives n depth (cs.drop 1)).map (inFront (c :: cs.take 1))
    else if c = '[' then
      match bracket cs with
      | some (some (_, rest)) =>
        (alternatives n depth rest).map (inFront (c :: cs.take (cs.length - rest.length)))
      | _ => none
    else if c = '(' then (alternatives n (depth + 1) cs).map (inFront [c])
    else if c = ')' then
      if depth = 0 then some ([[]], cs) else (alternatives n (depth - 1) cs).map (inFront [c])
    else if c = '|' ∧ depth = 0 then
      (alternatives n depth cs).map fun (more, rest) => ([] :: more, rest)
    else (alternatives n depth cs).map (inFront [c])

/-- The group that begins with a character: the operator, the alternatives and what follows; an
operator in front of a group that is not closed has no alternatives. -/
def groupAt (c : Char) (cs : List Char) : Option (Operator × Option (List (List Char) × List Char)) :=
  match operator c, cs with
  | some op, '(' :: ds => some (op, alternatives ds.length 0 ds)
  | _, _ => none

def Extended.ofPieces : List Piece → Extended
  | [] => .done
  | x :: p => .piece x (ofPieces p)

/-- One of several patterns. -/
def Extended.oneOf : List Extended → Extended
  | [] => .done
  | [p] => p
  | p :: q :: more => .either p (oneOf (q :: more))

/-- Whether the group may match nothing by its operator alone. -/
def Operator.optional : Operator → Bool
  | zeroOrOne | zeroOrMore => true
  | _ => false

/-- Read at most so many pieces and groups. In a run of stars and question marks that begins with
a star, an optional group that is not closed ends the pattern. -/
def Extended.read : ℕ → Bool → List Char → Extended
  | 0, _, _ => .done
  | _ + 1, _, [] => .done
  | n + 1, run, c :: cs =>
    match groupAt c cs with
    | some (op, some (bodies, rest)) =>
      .group op (oneOf (bodies.map (read n false))) (read n (run && op.optional) rest)
    | some (op, none) => if run && op.optional then .done else ofPieces (quoted (c :: cs))
    | none =>
      .piece (nextPiece run c cs).1 (read n (runsOn run c) (nextPiece run c cs).2)

/-- The extended pattern that a text is when it is not quoted. -/
def extended (text : List Char) : Extended := .read text.length false text

/-! ### Matching -/

/-- The text is one that `p` takes and another that `q` takes. -/
def splits (p q : List Char → Bool) (s : List Char) : Bool :=
  (List.range (s.length + 1)).any fun k => p (s.take k) && q (s.drop k)

/-- The text is several that `p` takes, at least one, and then one that `q` takes. -/
def repeats (p q : List Char → Bool) : ℕ → List Char → Bool
  | 0, s => splits p q s
  | n + 1, s => (List.range (s.length + 1)).any fun k =>
      p (s.take k) && (q (s.drop k) || (k ≠ 0 && repeats p q n (s.drop k)))

/-- A group whose body matches as `p` does, in front of `q`. -/
def Operator.take (p q : List Char → Bool) (s : List Char) : Operator → Bool
  | zeroOrOne => q s || splits p q s
  | zeroOrMore => q s || repeats p q s.length s
  | oneOrMore => repeats p q s.length s
  | exactlyOne => splits p q s
  | noneOf => splits (fun u => !p u) q s

/-- Whether the pattern matches all of a text. -/
def Extended.matches : Extended → List Char → Bool
  | done, s => s.isEmpty
  | piece .star p, s => s.tails.any p.matches
  | piece _ _, [] => false
  | piece x p, c :: s => x.accepts c && p.matches s
  | group op body rest, s => op.take body.matches rest.matches s
  | either p q, s => p.matches s || q.matches s

/-- **Without a group** the match is the one of plain patterns. -/
theorem matches_ofPieces (p : List Piece) (s : List Char) :
    (Extended.ofPieces p).matches s = globMatch p s := by
  induction p generalizing s with
  | nil => rfl
  | cons x p ih =>
    have same : (Extended.ofPieces p).matches = globMatch p := funext ih
    cases x <;> cases s <;> simp [Extended.ofPieces, Extended.matches, globMatch, same]

/-! ### Flat texts -/

/-- Nothing in the text takes more than one character: it has no bracket, no backslash, and no
parenthesis behind an operator. -/
def Flat (text : List Char) : Prop :=
  (∀ c ∈ text, c ∉ ['[', '\\']) ∧ ∀ c ∈ ['?', '*', '+', '@', '!'], ¬ [c, '('] <:+: text

instance (text : List Char) : Decidable (Flat text) :=
  @instDecidableAnd _ _ (List.decidableBAll (fun c => c ∉ ['[', '\\']) text)
    (List.decidableBAll (fun c => ¬ [c, '('] <:+: text) ['?', '*', '+', '@', '!'])

theorem mem_of_operator {c : Char} {op : Operator} (h : operator c = some op) :
    c ∈ ['?', '*', '+', '@', '!'] := by
  unfold operator at h
  split at h <;> simp_all

theorem groupAt_of_flat {c : Char} {cs : List Char} (flat : Flat (c :: cs)) :
    groupAt c cs = none := by
  unfold groupAt
  split
  · rename_i op ds found
    exact absurd ⟨[], ds, rfl⟩ (flat.2 c (mem_of_operator found))
  · rfl

/-- **A flat text** is read a piece a character. -/
theorem read_of_flat {text : List Char} (flat : Flat text) (run : Bool) :
    Extended.read text.length run text = .ofPieces (text.map pieceOf) := by
  induction text generalizing run with
  | nil => rfl
  | cons c cs ih =>
    have ordinary := flat.1 c List.mem_cons_self
    simp only [List.mem_cons, List.not_mem_nil, or_false, not_or] at ordinary
    have rest : Flat cs := by
      refine ⟨fun d hd => flat.1 d (List.mem_cons_of_mem _ hd), fun d hd inside => ?_⟩
      exact flat.2 d hd (inside.trans (List.suffix_cons c cs).isInfix)
    rw [List.length_cons, Extended.read, groupAt_of_flat flat]
    simp only [nextPiece_of_plain run cs ordinary.2 ordinary.1]
    rw [ih rest]
    rfl

/-- So the match is the one of the plain pattern. -/
theorem matches_of_flat {text : List Char} (flat : Flat text) (s : List Char) :
    (extended text).matches s = globMatch (text.map pieceOf) s := by
  rw [extended, read_of_flat flat, matches_ofPieces]

end Shell
