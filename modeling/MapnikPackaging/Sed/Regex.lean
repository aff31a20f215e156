/-
Basic regular expressions: syntax, parsing and matching.

`Re` is the syntax tree, `Re.rests` lists what can be left of a line after a match at its
start, and `Re.longest` is the length of the longest one. `parse` reads the syntax of POSIX
basic expressions, where `*` `.` `[` `^` and `$` are operators and `\(` `\)` are too; whether
`\|` is one differs between implementations and is a parameter. Intervals and back-references are
refused.

* `rests_lits` — a sequence of characters matches just itself.
* `exists_word` — an expression made of characters matches some word over them.
* `parse_chars` — where every token is a character, parsing gives back the sequence.
* `parse_fromChars` — with groups and alternatives, parsing gives an expression of the
  characters among the tokens, if anything.
-/

import Mathlib.Data.List.Basic

namespace Sed

/-! ### Matching -/

/-- Basic regular expressions without back-references. -/
inductive Re where
  | eps
  | chr (c : Char)
  | any
  | set (negated : Bool) (ranges : List (Char × Char))
  | bol | eol
  | cat (r s : Re)
  | alt (r s : Re)
  | star (r : Re)
deriving DecidableEq, Repr

/-- The characters one token matches. -/
def satisfying (p : Char → Bool) : List Char → List (List Char)
  | [] => []
  | c :: cs => if p c then [cs] else []

/-- What is left after any number of matches, each of which consumes something. -/
def starRests (f : Bool → List Char → List (List Char)) :
    Nat → Bool → List Char → List (List Char)
  | 0, _, s => [s]
  | n + 1, start, s =>
    s :: ((f start s).filter fun t => t.length < s.length).flatMap (starRests f n false)

/-- What is left of `s` after a match at its start; `start` says whether that is the start of
the line. -/
def Re.rests : Re → Bool → List Char → List (List Char)
  | eps, _, s => [s]
  | chr c, _, s => satisfying (· = c) s
  | any, _, s => satisfying (· ≠ '\n') s
  | set negated ranges, _, s =>
    satisfying (fun c => (ranges.any fun r => r.1 ≤ c && c ≤ r.2) != negated) s
  | bol, start, s => if start then [s] else []
  | eol, _, s => if s = [] then [s] else []
  | cat r r', start, s =>
    (r.rests start s).flatMap fun t => r'.rests (start && t.length = s.length) t
  | alt r r', start, s => r.rests start s ++ r'.rests start s
  | star r, start, s => starRests r.rests s.length start s

/-- The length of the longest match at the start of `s`. -/
def Re.longest (r : Re) (start : Bool) (s : List Char) : Option Nat :=
  ((r.rests start s).map fun t => s.length - t.length).max?

/-- A sequence of characters. -/
def lits (p : List Char) : Re := p.foldr (fun c r => .cat (.chr c) r) .eps

@[simp] theorem lits_nil : lits [] = .eps := rfl

@[simp] theorem lits_cons (c : Char) (p : List Char) : lits (c :: p) = .cat (.chr c) (lits p) := rfl

theorem rests_lits (p : List Char) (start : Bool) (s : List Char) :
    (lits p).rests start s = if p <+: s then [s.drop p.length] else [] := by
  induction p generalizing start s with
  | nil => simp [Re.rests]
  | cons c p ih =>
    cases s with
    | nil => simp [Re.rests, satisfying]
    | cons d s =>
      by_cases same : d = c
      · subst same
        simp [Re.rests, satisfying, ih]
      · simp [Re.rests, satisfying, same, Ne.symm same]

theorem longest_lits (p : List Char) (start : Bool) (s : List Char) :
    (lits p).longest start s = if p <+: s then some p.length else none := by
  rw [Re.longest, rests_lits]
  split
  · rename_i h
    have := h.length_le
    simp only [List.map_cons, List.map_nil, List.length_drop, List.max?_singleton]
    congr 1
    omega
  · rfl

/-- A match of all of `s` is the longest. -/
theorem longest_all {r : Re} {start : Bool} {s : List Char} (h : [] ∈ r.rests start s) :
    r.longest start s = some s.length := by
  rw [Re.longest, List.max?_eq_some_iff]
  refine ⟨List.mem_map.mpr ⟨[], h, by simp⟩, fun n hn => ?_⟩
  obtain ⟨t, -, rfl⟩ := List.mem_map.mp hn
  omega

/-- Made of characters with a property, by concatenation and alternatives. -/
def Re.FromChars (P : Char → Prop) : Re → Prop
  | eps => True
  | chr c => P c
  | cat r s => r.FromChars P ∧ s.FromChars P
  | alt r s => r.FromChars P ∧ s.FromChars P
  | _ => False

/-- Such an expression matches a word of such characters, wherever it stands. -/
theorem exists_word {P : Char → Prop} {r : Re} (h : r.FromChars P) :
    ∃ w : List Char, (∀ c ∈ w, P c) ∧ ∀ start rest, rest ∈ r.rests start (w ++ rest) := by
  induction r with
  | eps => exact ⟨[], by simp, fun start rest => by simp [Re.rests]⟩
  | chr c =>
    exact ⟨[c], by simpa [Re.FromChars] using h, fun start rest => by simp [Re.rests, satisfying]⟩
  | cat r s ihr ihs =>
    obtain ⟨v, hv, matchesV⟩ := ihr h.1
    obtain ⟨w, hw, matchesW⟩ := ihs h.2
    refine ⟨v ++ w, fun c hc => ?_, fun start rest => ?_⟩
    · exact (List.mem_append.mp hc).elim (hv c) (hw c)
    · rw [List.append_assoc]
      exact List.mem_flatMap.mpr ⟨w ++ rest, matchesV start (w ++ rest), matchesW _ rest⟩
  | alt r s ihr ihs =>
    obtain ⟨w, hw, matchesW⟩ := ihr h.1
    exact ⟨w, hw, fun start rest => List.mem_append_left _ (matchesW start rest)⟩
  | any | set | bol | eol | star => exact absurd h (by simp [Re.FromChars])

/-! ### Tokens -/

/-- The tokens of a basic regular expression. -/
inductive Tok where
  | chr (c : Char)
  | any | star | bol | eol
  | set (negated : Bool) (ranges : List (Char × Char))
  | op | cl | bar
deriving DecidableEq, Repr

/-- What implementations differ in. -/
structure Dialect where
  /-- `\|` separates alternatives -/
  alternation : Bool

/-- The token of a backslash and `c`; digits and braces are refused. -/
def escaped (d : Dialect) (c : Char) : Option Tok :=
  if c = '(' then some .op
  else if c = ')' then some .cl
  else if c = '|' then some (if d.alternation then .bar else .chr c)
  else if c = 'n' then some (.chr '\n')
  else if c.isDigit || c = '{' || c = '}' then none
  else some (.chr c)

/-- A bracket expression under way: `pending` is the last character, which may still turn out
to begin a range, and `dash` says that it does. -/
structure Bracket where
  first : Bool
  negated : Bool
  pending : Option Char
  dash : Bool
  ranges : List (Char × Char)

/-- The ranges once the expression is closed. -/
def Bracket.all (k : Bracket) : List (Char × Char) :=
  (if k.dash then [('-', '-')] else []) ++ (k.pending.map fun a => (a, a)).toList ++ k.ranges

/-- Read one character inside brackets; classes such as `[:alpha:]` are refused. -/
def Bracket.next (k : Bracket) (c : Char) : Option Bracket :=
  if k.first && !k.negated && c = '^' then some { k with negated := true }
  else match k.pending, k.dash with
    | some a, true => some ⟨false, k.negated, none, false, (a, c) :: k.ranges⟩
    | some a, false =>
      if c = '-' then some { k with dash := true }
      else if a = '[' && (c = ':' || c = '.' || c = '=') then none
      else some ⟨false, k.negated, some c, false, (a, a) :: k.ranges⟩
    | none, _ => some { k with first := false, pending := some c }

/-- Where the tokenizer is: between tokens, with whether `*` would be the first of a
sequence and so a character, after a backslash, or inside brackets. -/
inductive Mode where
  | plain (first : Bool)
  | backslash
  | bracket (k : Bracket)

/-- Whether a `$` here is the last of a sequence. -/
def closes (d : Dialect) : List Char → Bool
  | [] => true
  | '\\' :: ')' :: _ => true
  | '\\' :: '|' :: _ => d.alternation
  | _ => false

/-- The next token at `c`, with the mode after it; `none` in the first place means that no token
is complete yet. -/
def nextTok (d : Dialect) (c : Char) (cs : List Char) : Mode → Option (Option Tok × Mode)
  | .plain first =>
    if c = '\\' then some (none, .backslash)
    else if c = '.' then some (some .any, .plain false)
    else if c = '*' && !first then some (some .star, .plain false)
    else if c = '^' && first then some (some .bol, .plain true)
    else if c = '$' && closes d cs then some (some .eol, .plain false)
    else if c = '[' then some (none, .bracket ⟨true, false, none, false, []⟩)
    else some (some (.chr c), .plain false)
  | .backslash => (escaped d c).map fun t => (some t, .plain (t = .op || t = .bar))
  | .bracket k =>
    if c = ']' && !k.first then some (some (.set k.negated k.all), .plain false)
    else (k.next c).map fun k => (none, .bracket k)

def tokens (d : Dialect) : Mode → List Char → Option (List Tok)
  | .plain _, [] => some []
  | _, [] => none
  | mode, c :: cs =>
    (nextTok d c cs mode).bind fun (t, mode) => (tokens d mode cs).map (t.toList ++ ·)

/-! ### Parsing -/

/-- A sequence under way: the alternatives before it, and its items, last first. -/
structure Frame where
  before : Option Re
  items : List Re

namespace Frame

def empty : Frame := ⟨none, []⟩

/-- The sequence read so far. -/
def sequence (f : Frame) : Re := f.items.foldl (fun r x => .cat x r) .eps

def close (f : Frame) : Re :=
  match f.before with
  | none => f.sequence
  | some r => .alt r f.sequence

def push (f : Frame) (r : Re) : Frame := { f with items := r :: f.items }

/-- `*` applies to the last item. -/
def repeatLast (f : Frame) : Frame :=
  match f.items with
  | [] => f
  | r :: rs => { f with items := .star r :: rs }

end Frame

/-- Parse with the groups that are open around the current one. -/
def parseToks : List Tok → Frame → List Frame → Option Re
  | [], cur, [] => some cur.close
  | [], _, _ :: _ => none
  | .chr c :: ts, cur, outer => parseToks ts (cur.push (.chr c)) outer
  | .any :: ts, cur, outer => parseToks ts (cur.push .any) outer
  | .set negated ranges :: ts, cur, outer => parseToks ts (cur.push (.set negated ranges)) outer
  | .bol :: ts, cur, outer => parseToks ts (cur.push .bol) outer
  | .eol :: ts, cur, outer => parseToks ts (cur.push .eol) outer
  | .star :: ts, cur, outer => parseToks ts cur.repeatLast outer
  | .op :: ts, cur, outer => parseToks ts .empty (cur :: outer)
  | .cl :: _, _, [] => none
  | .cl :: ts, cur, f :: outer => parseToks ts (f.push cur.close) outer
  | .bar :: ts, cur, outer => parseToks ts ⟨some cur.close, []⟩ outer

/-- Parse a basic regular expression. -/
def parse (d : Dialect) (s : List Char) : Option Re :=
  (tokens d (.plain true) s).bind fun ts => parseToks ts .empty []

/-! ### Parsing characters and groups -/

/-- A frame all of whose expressions are made of characters with a property. -/
structure Frame.FromChars (P : Char → Prop) (f : Frame) : Prop where
  before : ∀ r, f.before = some r → r.FromChars P
  items : ∀ r ∈ f.items, r.FromChars P

section Chars

variable {P : Char → Prop}

theorem foldl_fromChars {items : List Re} {r : Re} (hr : r.FromChars P)
    (h : ∀ x ∈ items, x.FromChars P) : (items.foldl (fun r x => .cat x r) r).FromChars P := by
  induction items generalizing r with
  | nil => exact hr
  | cons x items ih =>
    exact ih ⟨h x (by simp), hr⟩ fun y hy => h y (by simp [hy])

theorem Frame.FromChars.close {f : Frame} (h : f.FromChars P) : f.close.FromChars P := by
  have sequence : f.sequence.FromChars P := foldl_fromChars trivial h.items
  cases hb : f.before with
  | none => simpa [Frame.close, hb] using sequence
  | some r => simpa [Frame.close, hb] using ⟨h.before r hb, sequence⟩

theorem Frame.FromChars.push {f : Frame} {r : Re} (h : f.FromChars P) (hr : r.FromChars P) :
    (f.push r).FromChars P :=
  ⟨h.before, fun x hx => (List.mem_cons.mp hx).elim (fun e => e ▸ hr) (h.items x)⟩

/-- A character with the property, or one of the operators that group. -/
def Tok.Plain (P : Char → Prop) : Tok → Prop
  | .chr c => P c
  | .op | .cl | .bar => True
  | _ => False

theorem parse_fromChars {ts : List Tok} {cur : Frame} {outer : List Frame} {r : Re}
    (plain : ∀ t ∈ ts, t.Plain P) (hcur : cur.FromChars P)
    (houter : ∀ f ∈ outer, f.FromChars P) (h : parseToks ts cur outer = some r) :
    r.FromChars P := by
  have empty : Frame.empty.FromChars P := ⟨by simp [Frame.empty], by simp [Frame.empty]⟩
  induction ts generalizing cur outer with
  | nil =>
    cases outer with
    | nil =>
      rw [← Option.some.inj h]
      exact hcur.close
    | cons f outer => cases h
  | cons t ts ih =>
    have rest : ∀ t ∈ ts, t.Plain P := fun t ht => plain t (by simp [ht])
    have now := plain t (by simp)
    cases t with
    | chr c => exact ih rest (hcur.push (r := .chr c) now) houter h
    | op =>
      exact ih rest empty (fun f hf => (List.mem_cons.mp hf).elim (fun e => e ▸ hcur) (houter f)) h
    | cl =>
      cases outer with
      | nil => cases h
      | cons f outer =>
        exact ih rest ((houter f (by simp)).push hcur.close) (fun g hg => houter g (by simp [hg])) h
    | bar =>
      refine ih rest ⟨fun r hr => ?_, by simp⟩ houter h
      obtain rfl : cur.close = r := by simpa using hr
      exact hcur.close
    | any | star | bol | eol | set => exact False.elim now

/-- Characters alone are read as themselves. -/
theorem parse_chars (p : List Char) : parseToks (p.map .chr) .empty [] = some (lits p) := by
  have general : ∀ (p : List Char) (items : List Re),
      parseToks (p.map .chr) ⟨none, items⟩ []
        = some (((p.map Re.chr).reverse ++ items).foldl (fun r x => .cat x r) .eps) := by
    intro p
    induction p with
    | nil => intro items; rfl
    | cons c p ih =>
      intro items
      rw [List.map_cons, parseToks]
      exact (ih (.chr c :: items)).trans (by simp)
  rw [Frame.empty, general, List.append_nil, List.foldl_reverse, List.foldr_map, lits]

end Chars

/-- Outside brackets, any other character stands for itself. -/
theorem nextTok_ordinary (d : Dialect) {c : Char} (cs : List Char) (first : Bool)
    (ordinary : c ∉ ['\\', '.', '*', '^', '$', '[']) :
    nextTok d c cs (.plain first) = some (some (.chr c), .plain false) := by
  simp only [List.mem_cons, List.not_mem_nil, or_false, not_or] at ordinary
  obtain ⟨h₁, h₂, h₃, h₄, h₅, h₆⟩ := ordinary
  simp [nextTok, h₁, h₂, h₃, h₄, h₅, h₆]

end Sed
