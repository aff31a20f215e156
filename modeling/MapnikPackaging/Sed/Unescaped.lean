/-
Patterns without a backslash.

Such a pattern has no groups and no alternatives; away from its ends it has no anchors either,
and what remains are characters, `.`, brackets and `*`.

* `exists_short_word` — an expression of that kind that matches something also matches a word
  with at most one character for each of its items.
* `needs_mem` — a character that is not repeated is in everything it matches.
* `tokens_unescaped` — the tokens of such a pattern.
* `parse_unescaped` — the expression it is.
* `parse_literal` — without any operator, it is the characters.
-/

import MapnikPackaging.Sed.Regex

namespace Sed

/-! ### Words -/

/-- Characters with `P`, and brackets only if `sets`; no groups, alternatives or anchors. -/
def Re.Simple (P : Char → Prop) (sets : Prop) : Re → Prop
  | chr c => P c
  | set _ _ => sets
  | cat r s => r.Simple P sets ∧ s.Simple P sets
  | eps => True
  | any => True
  | star _ => True
  | bol => False
  | eol => False
  | alt _ _ => False

/-- The number of items that are not repeated. -/
def Re.size : Re → ℕ
  | chr _ => 1
  | any => 1
  | set _ _ => 1
  | cat r s => r.size + s.size
  | eps => 0
  | star _ => 0
  | bol => 0
  | eol => 0
  | alt _ _ => 0

/-- The character stands in the expression and is not repeated. -/
def Re.Needs (c : Char) : Re → Prop
  | chr d => d = c
  | cat r s => r.Needs c ∨ s.Needs c
  | _ => False

section Words

variable {P : Char → Prop} {sets : Prop} {r : Re} {start : Bool} {s t : List Char} {c : Char}

theorem Re.Simple.mono {Q : Char → Prop} {sets' : Prop} (h : r.Simple P sets)
    (chars : ∀ c, P c → Q c) (wider : sets → sets') : r.Simple Q sets' := by
  induction r with
  | chr c => exact chars c h
  | set negated ranges => exact wider h
  | cat r s ihr ihs => exact ⟨ihr h.1, ihs h.2⟩
  | eps | any | star => trivial
  | bol | eol | alt => exact h.elim

theorem satisfying_cons {p : Char → Bool} (ht : t ∈ satisfying p s) : ∃ c, p c = true ∧ s = c :: t := by
  cases s with
  | nil => cases ht
  | cons c s =>
    by_cases holds : p c = true
    · simp only [satisfying, holds, if_true, List.mem_singleton] at ht
      exact ⟨c, holds, by rw [ht]⟩
    · simp [satisfying, holds] at ht

theorem starRests_suffix {f : Bool → List Char → List (List Char)}
    (hf : ∀ start s t, t ∈ f start s → t <:+ s) (n : ℕ) :
    ∀ start s t, t ∈ starRests f n start s → t <:+ s := by
  induction n with
  | zero =>
    intro start s t ht
    exact List.mem_singleton.mp ht ▸ List.suffix_refl s
  | succ n ih =>
    intro start s t ht
    rcases List.mem_cons.mp ht with rfl | ht
    · exact List.suffix_refl _
    · obtain ⟨u, hu, ht⟩ := List.mem_flatMap.mp ht
      exact (ih _ _ _ ht).trans (hf _ _ _ (List.mem_of_mem_filter hu))

/-- What is left is an end of the line. -/
theorem rests_suffix (r : Re) : ∀ start s t, t ∈ r.rests start s → t <:+ s := by
  have token : ∀ {p : Char → Bool} {s t : List Char}, t ∈ satisfying p s → t <:+ s := by
    intro p s t ht
    obtain ⟨c, -, rfl⟩ := satisfying_cons ht
    exact List.suffix_cons c t
  have whole : ∀ {s t : List Char}, t ∈ [s] → t <:+ s := fun ht =>
    List.mem_singleton.mp ht ▸ List.suffix_refl _
  induction r with
  | eps => exact fun start s t ht => whole ht
  | chr c => exact fun start s t ht => token ht
  | any => exact fun start s t ht => token ht
  | set negated ranges => exact fun start s t ht => token ht
  | bol =>
    intro start s t ht
    unfold Re.rests at ht
    split at ht
    · exact whole ht
    · cases ht
  | eol =>
    intro start s t ht
    unfold Re.rests at ht
    split at ht
    · exact whole ht
    · cases ht
  | cat r r' ih ih' =>
    intro start s t ht
    obtain ⟨u, hu, ht⟩ := List.mem_flatMap.mp ht
    exact (ih' _ _ _ ht).trans (ih _ _ _ hu)
  | alt r r' ih ih' =>
    intro start s t ht
    exact (List.mem_append.mp ht).elim (ih _ _ _) (ih' _ _ _)
  | star r ih => exact fun start s t ht => starRests_suffix ih _ start s t ht

/-- No repetition at all is a match. -/
theorem mem_starRests (f : Bool → List Char → List (List Char)) (n : ℕ) (start : Bool)
    (s : List Char) : s ∈ starRests f n start s := by
  cases n with
  | zero => exact List.mem_singleton_self s
  | succ n => exact List.mem_cons_self

/-- **A short word.** Where the expression matches something in a line, it matches some word no
longer than its items, wherever that stands. -/
theorem exists_short_word (simple : r.Simple P sets) (other : P 'a')
    (any : sets → ∀ c, c ≠ '\n' → P c) (nl : '\n' ∉ s) (ht : t ∈ r.rests start s) :
    ∃ w : List Char, w.length ≤ r.size ∧ (∀ c ∈ w, P c) ∧
      ∀ start rest, rest ∈ r.rests start (w ++ rest) := by
  induction r generalizing start s t with
  | eps => exact ⟨[], Nat.le_refl _, by simp, fun start rest => by simp [Re.rests]⟩
  | chr c => exact ⟨[c], Nat.le_refl _, by simpa [Re.Simple] using simple,
      fun start rest => by simp [Re.rests, satisfying]⟩
  | any => exact ⟨['a'], Nat.le_refl _, by simpa using other,
      fun start rest => by simp [Re.rests, satisfying]⟩
  | set negated ranges =>
    obtain ⟨c, holds, rfl⟩ := satisfying_cons ht
    have notNl : c ≠ '\n' := fun same => nl (same ▸ List.mem_cons_self)
    refine ⟨[c], Nat.le_refl _, by simpa using any simple c notNl, fun start rest => ?_⟩
    simp only [Re.rests, List.singleton_append, satisfying, holds, if_true, List.mem_singleton]
  | cat r r' ih ih' =>
    obtain ⟨u, hu, ht⟩ := List.mem_flatMap.mp ht
    have nl' : '\n' ∉ u := fun h => nl ((rests_suffix r _ _ _ hu).subset h)
    obtain ⟨v, short, hv, matchesV⟩ := ih simple.1 nl hu
    obtain ⟨w, short', hw, matchesW⟩ := ih' simple.2 nl' ht
    refine ⟨v ++ w, ?_, fun c hc => (List.mem_append.mp hc).elim (hv c) (hw c), fun start rest => ?_⟩
    · rw [List.length_append]
      exact Nat.add_le_add short short'
    · rw [List.append_assoc]
      exact List.mem_flatMap.mpr ⟨w ++ rest, matchesV start (w ++ rest), matchesW _ rest⟩
  | star r => exact ⟨[], Nat.zero_le _, by simp, fun start rest => mem_starRests _ _ _ _⟩
  | bol | eol | alt => exact absurd simple (by simp [Re.Simple])

/-- A character that is needed is in every line with a match. -/
theorem needs_mem (needs : r.Needs c) (ht : t ∈ r.rests start s) : c ∈ s := by
  induction r generalizing start s t with
  | chr d =>
    obtain ⟨e, holds, rfl⟩ := satisfying_cons ht
    obtain rfl : e = d := of_decide_eq_true holds
    exact needs ▸ List.mem_cons_self
  | cat r r' ih ih' =>
    obtain ⟨u, hu, ht⟩ := List.mem_flatMap.mp ht
    rcases needs with needs | needs
    · exact ih needs hu
    · exact (rests_suffix r _ _ _ hu).subset (ih' needs ht)
  | eps | any | set | bol | eol | alt | star => exact needs.elim

end Words

/-! ### Tokens -/

/-- A token of such a pattern; `P` holds of its characters. -/
def Tok.Simple (P : Char → Prop) (sets : Prop) : Tok → Prop
  | chr c => P c
  | any | star => True
  | set _ _ => sets
  | _ => False

/-- Characters that are never operators. -/
def Inert (c : Char) : Prop := c ∉ ['\\', '.', '*', '^', '$', '[', ']', '\n']

instance (c : Char) : Decidable (Inert c) := inferInstanceAs (Decidable (_ ∉ _))

section Tokens

variable {d : Dialect} {s u end_ : List Char} {ts : List Tok} {c : Char}

theorem tokens_chr {mode : Mode} (next : nextTok d c s mode = some (some (.chr c), .plain false)) :
    tokens d mode (c :: s) = (tokens d (.plain false) s).map (.chr c :: ·) := by
  rw [tokens, next]
  rfl

theorem tokens_inert (h : ∀ c ∈ s, Inert c) (first : Bool) :
    tokens d (.plain first) s = some (s.map .chr) := by
  induction s generalizing first with
  | nil => rfl
  | cons c s ih =>
    have ordinary : c ∉ ['\\', '.', '*', '^', '$', '['] := fun hmem =>
      h c (by simp) (List.subset_def.mp (by decide) hmem)
    simp [tokens, nextTok_ordinary d s first ordinary, ih fun d hd => h d (by simp [hd])]

/-- A bracket that is never closed is an error. -/
theorem tokens_open (h : ∀ c ∈ s, c ≠ ']') (k : Bracket) : tokens d (.bracket k) s = none := by
  induction s generalizing k with
  | nil => rfl
  | cons c s ih =>
    have next : nextTok d c s (.bracket k) = (k.next c).map fun k => (none, .bracket k) := by
      simp [nextTok, h c (by simp)]
    rw [tokens, next]
    cases k.next c with
    | none => rfl
    | some k' =>
      show ((tokens d (.bracket k') s).map _) = none
      rw [ih fun d hd => h d (by simp [hd])]
      rfl

/-- With something inert behind it, `$` is a character. -/
theorem not_closes (hb : '\\' ∉ u) (inert : ∀ c ∈ end_, Inert c) (nonempty : end_ ≠ []) :
    closes d (u ++ end_) = false := by
  have notEscape : ∀ c ∈ u ++ end_, c ≠ '\\' := by
    intro c hc same
    rcases List.mem_append.mp hc with hc | hc
    · exact hb (same ▸ hc)
    · exact inert c hc (by simp [same])
  obtain ⟨c, cs, hcs⟩ := List.exists_cons_of_ne_nil (l := u ++ end_) (by simp [nonempty])
  rw [hcs] at notEscape ⊢
  have first := notEscape c List.mem_cons_self
  unfold closes
  split
  · rename_i none
    cases none
  · rename_i same
    exact absurd (List.cons.inj same).1 first
  · rename_i same
    exact absurd (List.cons.inj same).1 first
  · rfl

/-- The next token outside brackets. -/
theorem nextTok_unescaped {cs : List Char} (hc : c ≠ '\\') (open_ : closes d cs = false) :
    nextTok d c cs (.plain false) =
      if c = '[' then some (none, .bracket ⟨true, false, none, false, []⟩)
      else some (some (if c = '.' then .any else if c = '*' then .star else .chr c),
        .plain false) := by
  by_cases dot : c = '.'
  · simp [nextTok, dot]
  by_cases asterisk : c = '*'
  · simp [nextTok, asterisk]
  by_cases bracket : c = '['
  · simp [nextTok, bracket]
  · simp [nextTok, hc, dot, asterisk, bracket, open_]

theorem Tok.Simple.mono {P Q : Char → Prop} {sets sets' : Prop} {t : Tok} (h : t.Simple P sets)
    (chars : ∀ c, P c → Q c) (wider : sets → sets') : t.Simple Q sets' := by
  cases t with
  | chr c => exact chars c h
  | set negated ranges => exact wider h
  | any | star => trivial
  | bol | eol | op | cl | bar => exact h.elim

/-- **The tokens of a pattern without a backslash** that ends in something inert. -/
theorem tokens_unescaped (hb : '\\' ∉ u) (inert : ∀ c ∈ end_, Inert c) (nonempty : end_ ≠ []) :
    (∀ ts, tokens d (.plain false) (u ++ end_) = some ts → ∃ ts₁, ts = ts₁ ++ end_.map .chr ∧
      (∀ t ∈ ts₁, t.Simple (fun c => c ∈ u ∧ c ≠ '.') ('[' ∈ u)) ∧ ts₁.length ≤ u.length ∧
      ('[' ∈ u → ts₁.length < u.length) ∧ ('*' ∈ u → '[' ∉ u → .star ∈ ts₁)) ∧
    ∀ k ts, tokens d (.bracket k) (u ++ end_) = some ts → ∃ ts₁, ts = ts₁ ++ end_.map .chr ∧
      (∀ t ∈ ts₁, t.Simple (fun c => c ∈ u ∧ c ≠ '.') True) ∧ ts₁.length ≤ u.length := by
  induction u with
  | nil =>
    constructor
    · intro ts hts
      rw [List.nil_append, tokens_inert inert false] at hts
      exact ⟨[], (Option.some.inj hts).symm, by simp⟩
    · intro k ts hts
      rw [List.nil_append, tokens_open fun c hc same => inert c hc (by simp [same])] at hts
      cases hts
  | cons c u ih =>
    simp only [List.mem_cons, not_or] at hb
    obtain ⟨ihPlain, ihBracket⟩ := ih hb.2
    have later : ∀ {sets sets' : Prop} {t : Tok}, (sets → sets') →
        t.Simple (fun a => a ∈ u ∧ a ≠ '.') sets →
        t.Simple (fun a => a ∈ c :: u ∧ a ≠ '.') sets' := fun wider h =>
      h.mono (fun a ha => ⟨List.mem_cons_of_mem c ha.1, ha.2⟩) wider
    constructor
    · intro ts hts
      rw [List.cons_append, tokens, nextTok_unescaped (Ne.symm hb.1)
        (not_closes hb.2 inert nonempty)] at hts
      split at hts
      · rename_i bracket
        obtain ⟨ts', hts', rfl⟩ := Option.map_eq_some_iff.mp hts
        obtain ⟨ts₁, rfl, simple, length⟩ := ihBracket _ ts' hts'
        have opened : '[' ∈ c :: u := by simp [bracket]
        exact ⟨ts₁, rfl, fun t ht => later (fun _ => opened) (simple t ht), Nat.le_succ_of_le length,
          fun _ => Nat.lt_succ_of_le length, fun _ none => absurd opened none⟩
      · rename_i notBracket
        obtain ⟨ts', hts', rfl⟩ := Option.map_eq_some_iff.mp hts
        obtain ⟨ts₁, rfl, simple, length, shorter, star⟩ := ihPlain ts' hts'
        have same : '[' ∈ c :: u ↔ '[' ∈ u := by simp [Ne.symm notBracket]
        refine ⟨_ :: ts₁, rfl, fun t ht => ?_, Nat.succ_le_succ length,
          fun h => Nat.succ_lt_succ (shorter (same.mp h)), fun h none => ?_⟩
        · rcases List.mem_cons.mp ht with rfl | ht
          · split
            · trivial
            · rename_i notDot
              split
              · trivial
              · exact ⟨List.mem_cons_self, notDot⟩
          · exact later same.mpr (simple t ht)
        · by_cases here : c = '*'
          · subst here
            exact List.mem_cons_self
          · exact List.mem_cons_of_mem _
              (star ((List.mem_cons.mp h).resolve_left (Ne.symm here)) (fun h => none (same.mpr h)))
    · intro k ts hts
      rw [List.cons_append, tokens] at hts
      unfold nextTok at hts
      simp only at hts
      split at hts
      · obtain ⟨ts', hts', rfl⟩ := Option.map_eq_some_iff.mp hts
        obtain ⟨ts₁, rfl, simple, length, -⟩ := ihPlain ts' hts'
        refine ⟨_ :: ts₁, rfl, fun t ht => ?_, Nat.succ_le_succ length⟩
        rcases List.mem_cons.mp ht with rfl | ht
        · trivial
        · exact later (fun _ => trivial) (simple t ht)
      · cases next : k.next c with
        | none =>
          rw [next] at hts
          cases hts
        | some k' =>
          rw [next] at hts
          obtain ⟨ts', hts', rfl⟩ := Option.map_eq_some_iff.mp hts
          obtain ⟨ts₁, rfl, simple, length⟩ := ihBracket k' ts' hts'
          exact ⟨ts₁, rfl, fun t ht => later (fun h => h) (simple t ht), Nat.le_succ_of_le length⟩

end Tokens

/-! ### Expressions -/

/-- What a token makes of the items of a sequence, last first. -/
def pushTok (items : List Re) : Tok → List Re
  | .chr c => .chr c :: items
  | .any => .any :: items
  | .set negated ranges => .set negated ranges :: items
  | .star => (Frame.repeatLast ⟨none, items⟩).items
  | .bol => items
  | .eol => items
  | .op => items
  | .cl => items
  | .bar => items

/-- The size of all items. -/
def sizes : List Re → ℕ
  | [] => 0
  | x :: xs => x.size + sizes xs

section Expressions

variable {P : Char → Prop} {sets : Prop} {ts : List Tok} {items : List Re} {c : Char} {d : Dialect}

theorem parseToks_simple (h : ∀ t ∈ ts, t.Simple P sets) :
    parseToks ts ⟨none, items⟩ [] = some (Frame.sequence ⟨none, ts.foldl pushTok items⟩) := by
  induction ts generalizing items with
  | nil => rfl
  | cons t ts ih =>
    have rest := fun t ht => h t (List.mem_cons_of_mem _ ht)
    have now := h t List.mem_cons_self
    cases t with
    | chr c => exact ih rest
    | any => exact ih rest
    | set negated ranges => exact ih rest
    | star =>
      cases items with
      | nil => exact ih rest
      | cons x xs => exact ih rest
    | bol | eol | op | cl | bar => exact now.elim

theorem sequence_simple (h : ∀ x ∈ items, x.Simple P sets) :
    (Frame.sequence ⟨none, items⟩).Simple P sets := by
  have general : ∀ (items : List Re) (r : Re), r.Simple P sets → (∀ x ∈ items, x.Simple P sets) →
      (items.foldl (fun r x => .cat x r) r).Simple P sets := by
    intro items
    induction items with
    | nil => exact fun r hr _ => hr
    | cons x items ih =>
      exact fun r hr h => ih _ ⟨h x (by simp), hr⟩ fun y hy => h y (by simp [hy])
  exact general items .eps trivial h

theorem sequence_size : (Frame.sequence ⟨none, items⟩).size = sizes items := by
  have general : ∀ (items : List Re) (r : Re),
      (items.foldl (fun r x => .cat x r) r).size = sizes items + r.size := by
    intro items
    induction items with
    | nil => exact fun r => (Nat.zero_add _).symm
    | cons x items ih =>
      intro r
      rw [List.foldl_cons, ih, sizes, Re.size]
      omega
  exact general items .eps

theorem sequence_needs (h : .chr c ∈ items) : (Frame.sequence ⟨none, items⟩).Needs c := by
  have general : ∀ (items : List Re) (r : Re), .chr c ∈ items ∨ r.Needs c →
      (items.foldl (fun r x => .cat x r) r).Needs c := by
    intro items
    induction items with
    | nil => exact fun r h => h.resolve_left List.not_mem_nil
    | cons x items ih =>
      intro r h
      apply ih _
      rcases h with h | h
      · rcases List.mem_cons.mp h with rfl | h
        · exact .inr (.inl rfl)
        · exact .inl h
      · exact .inr (.inr h)
  exact general items .eps (.inl h)

theorem foldl_pushTok_simple (h : ∀ t ∈ ts, t.Simple P sets) (hi : ∀ x ∈ items, x.Simple P sets) :
    ∀ x ∈ ts.foldl pushTok items, x.Simple P sets := by
  induction ts generalizing items with
  | nil => exact hi
  | cons t ts ih =>
    refine ih (fun t ht => h t (List.mem_cons_of_mem _ ht)) ?_
    have now := h t List.mem_cons_self
    cases t with
    | chr c => exact List.forall_mem_cons.mpr ⟨now, hi⟩
    | any => exact List.forall_mem_cons.mpr ⟨trivial, hi⟩
    | set negated ranges => exact List.forall_mem_cons.mpr ⟨now, hi⟩
    | star =>
      cases items with
      | nil => exact hi
      | cons x xs =>
        exact List.forall_mem_cons.mpr ⟨trivial, fun y hy => hi y (List.mem_cons_of_mem _ hy)⟩
    | bol | eol | op | cl | bar => exact hi

/-- Each star leaves one item less to count. -/
theorem size_foldl_pushTok :
    sizes (ts.foldl pushTok items) + ts.count .star ≤ sizes items + ts.length := by
  induction ts generalizing items with
  | nil => exact Nat.le_refl _
  | cons t ts ih =>
    have rest := @ih (pushTok items t)
    have step : sizes (pushTok items t) + [t].count .star ≤ sizes items + 1 := by
      cases t with
      | star =>
        cases items with
        | nil => exact Nat.le_refl _
        | cons x xs => exact Nat.add_le_add_right (Nat.add_le_add_right (Nat.zero_le _) _) 1
      | chr | any | set => exact Nat.le_of_eq (Nat.add_comm 1 _)
      | bol | eol | op | cl | bar => exact Nat.le_succ _
    rw [List.foldl_cons, ← List.singleton_append, List.count_append, List.length_append,
      List.length_singleton]
    omega

/-- An item that is no longer the last is not repeated any more. -/
theorem mem_tail_foldl_pushTok {x : Re} (h : x ∈ items.tail) : x ∈ (ts.foldl pushTok items).tail := by
  induction ts generalizing items with
  | nil => exact h
  | cons t ts ih =>
    apply ih
    cases t with
    | star =>
      cases items with
      | nil => exact h
      | cons y ys => exact h
    | chr | any | set => exact List.mem_of_mem_tail h
    | bol | eol | op | cl | bar => exact h

end Expressions

/-- **The expression of a pattern without a backslash**, between two inert ends. -/
theorem parse_unescaped {d : Dialect} {c₀ c e : Char} {u end_ : List Char} {r : Re}
    (first : Inert c₀) (hb : '\\' ∉ u) (inert : ∀ a ∈ c :: e :: end_, Inert a)
    (h : parse d (c₀ :: (u ++ c :: e :: end_)) = some r) :
    r.Simple (fun a => a ∈ c₀ :: (u ++ c :: e :: end_) ∧ a ≠ '.') ('[' ∈ u) ∧ r.Needs c ∧
      r.size ≤ (c₀ :: (u ++ c :: e :: end_)).length ∧
      ('[' ∈ u ∨ '*' ∈ u → r.size < (c₀ :: (u ++ c :: e :: end_)).length) := by
  obtain ⟨ts, hts, parsed⟩ := Option.bind_eq_some_iff.mp h
  have ordinary : c₀ ∉ ['\\', '.', '*', '^', '$', '['] := fun hmem =>
    first (List.subset_def.mp (by decide) hmem)
  rw [tokens, nextTok_ordinary d _ true ordinary] at hts
  obtain ⟨ts', hts', rfl⟩ := Option.map_eq_some_iff.mp hts
  obtain ⟨ts₁, rfl, simple, length, shorter, star⟩ :=
    (tokens_unescaped hb inert (by simp)).1 ts' hts'
  let ts := (.chr c₀ :: ts₁) ++ .chr c :: .chr e :: end_.map .chr
  have notDot : ∀ {a}, Inert a → a ≠ '.' := fun ha same => ha (by simp [same])
  have all : ∀ t ∈ ts, t.Simple (fun a => a ∈ c₀ :: (u ++ c :: e :: end_) ∧ a ≠ '.') ('[' ∈ u) := by
    intro t ht
    rcases List.mem_append.mp ht with ht | ht
    · rcases List.mem_cons.mp ht with rfl | ht
      · exact ⟨List.mem_cons_self, notDot first⟩
      · exact (simple t ht).mono (fun a ha =>
          ⟨List.mem_cons_of_mem _ (List.mem_append_left _ ha.1), ha.2⟩) fun h => h
    · obtain ⟨a, ha, rfl⟩ := List.mem_map.mp (show t ∈ (c :: e :: end_).map .chr from ht)
      exact ⟨List.mem_cons_of_mem _ (List.mem_append_right _ ha), notDot (inert a ha)⟩
  obtain rfl : Frame.sequence ⟨none, ts.foldl pushTok []⟩ = r :=
    Option.some.inj ((parseToks_simple all).symm.trans parsed)
  have size : sizes (ts.foldl pushTok []) + ts.count .star ≤ sizes [] + ts.length :=
    size_foldl_pushTok
  have total : ts.length = ts₁.length + end_.length + 3 := by
    simp [ts]
    omega
  have counted : (c₀ :: (u ++ c :: e :: end_)).length = u.length + end_.length + 3 := by
    simp
    omega
  rw [sizes, total] at size
  rw [sequence_size, counted]
  refine ⟨sequence_simple (foldl_pushTok_simple all (by simp)), sequence_needs ?_, by omega, ?_⟩
  · have split : ts.foldl pushTok [] =
        (end_.map .chr).foldl pushTok (.chr e :: .chr c :: (.chr c₀ :: ts₁).foldl pushTok []) := by
      rw [List.foldl_append]
      rfl
    rw [split]
    exact List.mem_of_mem_tail (mem_tail_foldl_pushTok List.mem_cons_self)
  · rintro (bracket | asterisk)
    · have := shorter bracket
      omega
    · by_cases bracket : '[' ∈ u
      · have := shorter bracket
        omega
      · have starred : 0 < ts.count .star := List.count_pos_iff.mpr
          (List.mem_append_left _ (List.mem_cons_of_mem _ (star asterisk bracket)))
        omega

/-- **Without any operator** the pattern is its characters. -/
theorem parse_literal {d : Dialect} {c₀ c : Char} {u end_ : List Char} (first : Inert c₀)
    (plain : ∀ a ∈ u, a ∉ ['\\', '.', '*', '[']) (inert : ∀ a ∈ c :: end_, Inert a) :
    parse d (c₀ :: (u ++ c :: end_)) = some (lits (c₀ :: (u ++ c :: end_))) := by
  have ordinary : c₀ ∉ ['\\', '.', '*', '^', '$', '['] := fun hmem =>
    first (List.subset_def.mp (by decide) hmem)
  have rest : ∀ u : List Char, (∀ a ∈ u, a ∉ ['\\', '.', '*', '[']) →
      tokens d (.plain false) (u ++ c :: end_) = some ((u ++ c :: end_).map .chr) := by
    intro u
    induction u with
    | nil => exact fun _ => tokens_inert inert false
    | cons a u ih =>
      intro plain
      have ha := plain a List.mem_cons_self
      simp only [List.mem_cons, List.not_mem_nil, or_false, not_or] at ha
      have behind := fun b hb => plain b (List.mem_cons_of_mem _ hb)
      have open_ := not_closes (d := d) (u := u) (fun h => behind _ h (by simp)) inert (by simp)
      have next := nextTok_unescaped ha.1 open_
      rw [if_neg ha.2.2.2, if_neg ha.2.1, if_neg ha.2.2.1] at next
      rw [List.cons_append, tokens_chr next, ih behind]
      rfl
  rw [parse, tokens_chr (nextTok_ordinary d _ true ordinary), rest u plain]
  exact parse_chars (c₀ :: (u ++ c :: end_))

end Sed
