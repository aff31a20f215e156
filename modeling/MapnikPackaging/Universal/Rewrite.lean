/-
The rewriting of paths in `make_universal.sh`.

The script copies the prefix of each architecture into the universal one and rewrites the
prefix in the `.pc`, `.la` and `-config` files with `sed`. The build root is escaped first, by
one command for both halves of `s/PATTERN/REPLACEMENT/g`. `rewrite_sound_iff` says for which
roots the program replaces the one path by the other and changes nothing else.
-/

import MapnikPackaging.Sed.Substitute

namespace MapnikPackaging

open Sed

/-! ### The program -/

/-- `ARCHS`. -/
def archs : List String :=
  ["x86_64-macosx", "arm64-iphoneos", "armv7s-iphoneos", "armv7-iphoneos", "i386-iphonesimulator",
    "x86_64-iphonesimulator"]

/-- The characters in `[]\/()$*.^|[]`. -/
def escapedChars : List Char := [']', '\\', '/', '(', ')', '$', '*', '.', '^', '|', '[']

/-- `sed -e 's/[]\/()$*.^|[]/\\&/g'`. -/
def escape (root : List Char) : List Char :=
  root.flatMap fun c => if c ∈ escapedChars then ['\\', c] else [c]

/-- `s/${build_root_escaped}-${arch}/${build_root_escaped}-universal/g`. -/
def rewriteProgram (root arch : String) : List Char :=
  "s/".toList ++ (escape root.toList ++ ('-' :: arch.toList ++ '/' ::
    (escape root.toList ++ "-universal/g".toList)))

/-- The program is accepted and replaces `ROOT-ARCH` by `ROOT-universal` in every line. -/
def RewriteSound (d : Dialect) (root arch : String) : Prop :=
  ∃ f, compile d (rewriteProgram root arch) = some f ∧ ∀ line : List Char, '\n' ∉ line →
    f line = replaceAll (root.toList ++ '-' :: arch.toList) (root.toList ++ "-universal".toList) line

/-! ### Reading the program -/

/-- An escaped root after its slashes have lost their backslashes. -/
def unslashed (root : List Char) : List Char :=
  root.flatMap fun c => if c ∈ escapedChars.erase '/' then ['\\', c] else [c]

theorem readField_escape {root : List Char} (nl : '\n' ∉ root) (t : List Char) :
    readField '/' false (escape root ++ t) =
      (readField '/' false t).map fun p => (unslashed root ++ p.1, p.2) := by
  induction root with
  | nil => simp [escape, unslashed]
  | cons c root ih =>
    simp only [List.mem_cons, not_or] at nl
    obtain ⟨notNl, nl⟩ := nl
    have ih := ih nl
    rw [escape, unslashed, List.flatMap_cons, List.flatMap_cons, ← escape, ← unslashed]
    by_cases slash : c = '/'
    · subst slash
      simp only [escapedChars, List.append_assoc] at ih ⊢
      simp [readField, ih, Function.comp_def]
    by_cases special : c ∈ escapedChars
    · have kept : c ∈ escapedChars.erase '/' := (List.mem_erase_of_ne slash).mpr special
      rw [if_pos special, if_pos kept]
      simp [readField, ih, slash, Function.comp_def]
    · have ordinary : c ∉ escapedChars.erase '/' := fun h => special (List.mem_of_mem_erase h)
      have backslash : c ≠ '\\' := fun h => special (h ▸ by decide)
      rw [if_neg special, if_neg ordinary]
      simp [readField, ih, slash, backslash, Ne.symm notNl, Function.comp_def]

/-- Characters without a meaning in a program, a pattern or a replacement. -/
def Ordinary (c : Char) : Prop := c ∉ '&' :: '\n' :: escapedChars

instance (c : Char) : Decidable (Ordinary c) := inferInstanceAs (Decidable (_ ∉ _))

theorem ordinary_of_all {t : List Char} (h : t.all (fun c => Ordinary c) = true) :
    ∀ c ∈ t, Ordinary c :=
  fun c hc => of_decide_eq_true (List.all_eq_true.mp h c hc)

theorem readField_ordinary {t : List Char} (h : ∀ c ∈ t, Ordinary c) (rest : List Char) :
    readField '/' false (t ++ '/' :: rest) = some (t, rest) := by
  induction t with
  | nil => rfl
  | cons c t ih =>
    have hc := h c (by simp)
    simp only [Ordinary, escapedChars, List.mem_cons, List.not_mem_nil, or_false, not_or] at hc
    have ih := ih fun d hd => h d (by simp [hd])
    simp [readField, ih, hc]

/-- What an escaped character is in a pattern. -/
def patternTok (d : Dialect) (c : Char) : Tok :=
  if c = '(' then .op else if c = ')' then .cl
  else if c = '|' ∧ d.alternation = true then .bar else .chr c

/-- The characters that escaping turns into operators. -/
def Special (d : Dialect) (c : Char) : Prop := c = '(' ∨ c = ')' ∨ (c = '|' ∧ d.alternation = true)

instance (d : Dialect) (c : Char) : Decidable (Special d c) :=
  inferInstanceAs (Decidable (_ ∨ _ ∨ _))

theorem patternTok_of_not_special {d : Dialect} {c : Char} (h : ¬ Special d c) :
    patternTok d c = .chr c := by
  simp only [Special, not_or] at h
  simp [patternTok, h]

theorem escaped_eq {d : Dialect} {c : Char} (h : c ∈ escapedChars.erase '/') :
    escaped d c = some (patternTok d c) := by
  have all : ∀ alternation, (escapedChars.erase '/').all
      (fun c => escaped ⟨alternation⟩ c = some (patternTok ⟨alternation⟩ c)) = true := by decide
  cases d with
  | mk alternation => exact of_decide_eq_true (List.all_eq_true.mp (all alternation) c h)

theorem tokens_ordinary {d : Dialect} {t : List Char} (h : ∀ c ∈ t, Ordinary c) (first : Bool) :
    tokens d (.plain first) t = some (t.map .chr) := by
  induction t generalizing first with
  | nil => rfl
  | cons c t ih =>
    have hc : c ∉ ['\\', '.', '*', '^', '$', '['] := fun hmem =>
      h c (by simp) (List.subset_def.mp (by decide) hmem)
    simp [tokens, nextTok_ordinary d t first hc, ih fun d hd => h d (by simp [hd])]

theorem tokens_unslashed {d : Dialect} (root : List Char) {t : List Char}
    (h : ∀ c ∈ t, Ordinary c) (first : Bool) :
    tokens d (.plain first) (unslashed root ++ t)
      = some (root.map (patternTok d) ++ t.map .chr) := by
  induction root generalizing first with
  | nil => simpa [unslashed] using tokens_ordinary h first
  | cons c root ih =>
    rw [unslashed, List.flatMap_cons, ← unslashed]
    by_cases special : c ∈ escapedChars.erase '/'
    · rw [if_pos special]
      simp [tokens, nextTok, escaped_eq special, ih]
    · have ordinary : c ∉ ['\\', '.', '*', '^', '$', '['] := fun hmem =>
        special (List.subset_def.mp (by decide) hmem)
      have itself : patternTok d c = .chr c :=
        patternTok_of_not_special fun hs => special (by
          rcases hs with rfl | rfl | ⟨rfl, -⟩ <;> decide)
      rw [if_neg special]
      simp [tokens, nextTok_ordinary d _ first ordinary, ih, itself]

/-- What a character of the root is in a replacement. -/
def replacementTok (c : Char) : RTok := if c = '&' then .whole else .chr c

theorem replToks_ordinary {t : List Char} (h : ∀ c ∈ t, Ordinary c) :
    replToks false t = some (t.map .chr) := by
  induction t with
  | nil => rfl
  | cons c t ih =>
    have hc := h c (by simp)
    simp only [Ordinary, escapedChars, List.mem_cons, List.not_mem_nil, or_false, not_or] at hc
    simp [replToks, hc, ih fun d hd => h d (by simp [hd])]

theorem replToks_unslashed (root : List Char) {t : List Char} (h : ∀ c ∈ t, Ordinary c) :
    replToks false (unslashed root ++ t) = some (root.map replacementTok ++ t.map .chr) := by
  induction root with
  | nil => simpa [unslashed] using replToks_ordinary h
  | cons c root ih =>
    rw [unslashed, List.flatMap_cons, ← unslashed]
    by_cases special : c ∈ escapedChars.erase '/'
    · have all : (escapedChars.erase '/').all (fun c => c.isDigit = false ∧ c ≠ '&') = true := by
        decide
      have plain : c.isDigit = false ∧ c ≠ '&' :=
        of_decide_eq_true (List.all_eq_true.mp all c special)
      rw [if_pos special]
      simp [replToks, plain, ih, replacementTok]
    · have backslash : c ≠ '\\' := fun e => special (e ▸ by decide)
      rw [if_neg special]
      simp [replToks, backslash, ih, replacementTok]

/-! ### The compiled program -/

theorem arch_ordinary {arch : String} (h : arch ∈ archs) : ∀ c ∈ '-' :: arch.toList, Ordinary c := by
  simp only [archs, List.mem_cons, List.not_mem_nil, or_false] at h
  rcases h with rfl | rfl | rfl | rfl | rfl | rfl <;> exact ordinary_of_all (by decide)

theorem universal_ordinary : ∀ c ∈ "-universal".toList, Ordinary c := ordinary_of_all (by decide)

/-- The tokens of the pattern. -/
def patternToks (d : Dialect) (root arch : String) : List Tok :=
  root.toList.map (patternTok d) ++ ('-' :: arch.toList).map .chr

/-- The pieces of the replacement. -/
def replacementToks (root : String) : List RTok :=
  root.toList.map replacementTok ++ "-universal".toList.map .chr

section Compiled

variable {d : Dialect} {root arch : String} {f : List Char → List Char}

/-- **What the rewriting program means.** Only the parentheses decide whether it is accepted. -/
theorem compile_rewrite (nl : '\n' ∉ root.toList) (harch : arch ∈ archs) :
    compile d (rewriteProgram root arch) =
      (parseToks (patternToks d root arch) .empty []).map fun r =>
        substitute r (replacementToks root) := by
  have pattern : readField '/' false (escape root.toList ++ ('-' :: arch.toList ++ '/' ::
      (escape root.toList ++ "-universal/g".toList))) =
      some (unslashed root.toList ++ '-' :: arch.toList,
        escape root.toList ++ "-universal/g".toList) := by
    rw [readField_escape nl, readField_ordinary (arch_ordinary harch), Option.map_some]
  have replacement : readField '/' false (escape root.toList ++ "-universal/g".toList) =
      some (unslashed root.toList ++ "-universal".toList, "g".toList) := by
    rw [show "-universal/g".toList = "-universal".toList ++ '/' :: "g".toList by decide,
      readField_escape nl, readField_ordinary universal_ordinary, Option.map_some]
  have nonempty : unslashed root.toList ++ '-' :: arch.toList ≠ [] := by simp
  apply (compile_eq (by decide) nonempty pattern replacement).trans
  rw [parse, tokens_unslashed root.toList (arch_ordinary harch) true,
    replToks_unslashed root.toList universal_ordinary]
  exact (Option.map_eq_bind).symm

theorem patternToks_plain (nl : '\n' ∉ root.toList) (harch : arch ∈ archs) :
    ∀ t ∈ patternToks d root arch, t.Plain fun a => ¬ Special d a ∧ a ≠ '\n' := by
  intro t ht
  rcases List.mem_append.mp ht with ht | ht <;> obtain ⟨a, ha, rfl⟩ := List.mem_map.mp ht
  · by_cases special : Special d a
    · rcases special with rfl | rfl | ⟨rfl, alternation⟩
      · exact trivial
      · exact trivial
      · simp only [patternTok, alternation]
        exact trivial
    · rw [patternTok_of_not_special special]
      exact ⟨special, fun e => nl (e ▸ ha)⟩
  · have ordinary := arch_ordinary harch a ha
    simp only [Ordinary, escapedChars, List.mem_cons, List.not_mem_nil, or_false, not_or] at ordinary
    exact ⟨by simp [Special, ordinary], ordinary.2.1⟩

/-- The replacement holds the match in place of every ampersand of the root. -/
theorem expand_replacementToks (m : List Char) : expand (replacementToks root) m =
    (root.toList.flatMap fun c => if c = '&' then m else [c]) ++ "-universal".toList := by
  have pieces : ∀ l : List Char, expand (l.map replacementTok) m
      = l.flatMap fun c => if c = '&' then m else [c] := by
    intro l
    rw [expand, List.flatMap_map]
    apply List.flatMap_congr
    intro c _
    by_cases amp : c = '&' <;> simp [replacementTok, amp]
  have plain : ∀ l : List Char, expand (l.map .chr) m = l := fun l => by
    simp [expand, List.flatMap_map]
  rw [replacementToks, expand, List.flatMap_append]
  exact congrArg₂ _ (pieces _) (plain _)

theorem flatMap_of_no_ampersand {l m : List Char} (h : '&' ∉ l) :
    (l.flatMap fun c => if c = '&' then m else [c]) = l := by
  induction l with
  | nil => rfl
  | cons c l ih =>
    simp only [List.mem_cons, not_or] at h
    rw [List.flatMap_cons, if_neg (Ne.symm h.1), ih h.2]
    rfl

/-- An ampersand makes the replacement longer. -/
theorem length_flatMap_ampersand {l m : List Char} (hm : 1 < m.length) :
    l.length + l.count '&' ≤ (l.flatMap fun c => if c = '&' then m else [c]).length := by
  induction l with
  | nil => simp
  | cons c l ih =>
    rw [List.flatMap_cons, List.length_append, List.length_cons]
    by_cases amp : c = '&'
    · simp only [amp, if_true, List.count_cons_self]
      omega
    · simp only [amp, if_false, List.count_cons_of_ne amp, List.length_singleton]
      omega

/-- A pattern without operators is the path itself. -/
theorem compile_plain (nl : '\n' ∉ root.toList) (harch : arch ∈ archs)
    (plain : ∀ c ∈ root.toList, ¬ Special d c) :
    compile d (rewriteProgram root arch) = some (replaceAllFrom (root.toList ++ '-' :: arch.toList)
      (expand (replacementToks root) (root.toList ++ '-' :: arch.toList)) 0) := by
  have characters : patternToks d root arch = (root.toList ++ '-' :: arch.toList).map .chr := by
    rw [patternToks, List.map_append]
    congr 1
    exact List.map_congr_left fun c hc => patternTok_of_not_special (plain c hc)
  rw [compile_rewrite nl harch, characters, parse_chars, Option.map_some]
  congr 1
  funext line
  exact scan_lits (by simp) _ true false 0 line

/-- With operators, if it is accepted, it replaces some line that does not hold the path. -/
theorem not_sound_of_special (nl : '\n' ∉ root.toList) (harch : arch ∈ archs) {c : Char}
    (hc : c ∈ root.toList) (special : Special d c) : ¬ RewriteSound d root arch := by
  rintro ⟨f, hf, sound⟩
  rw [compile_rewrite nl harch] at hf
  obtain ⟨r, hr, rfl⟩ := Option.map_eq_some_iff.mp hf
  have plain := patternToks_plain (d := d) nl harch
  obtain ⟨w, chars, matches_w⟩ := exists_word
    (parse_fromChars plain ⟨by simp [Frame.empty], by simp [Frame.empty]⟩ (by simp) hr)
  have whole : r.longest true w = some w.length := by
    apply longest_all
    simpa using matches_w true []
  have absent : c ∉ w := fun h => (chars c h).1 special
  have same := sound w fun h => (chars _ h).2 rfl
  rw [replaceAll_of_not_mem (List.mem_append_left _ hc) absent, substitute, scan_all whole] at same
  refine absent (same ▸ List.mem_flatMap.mpr ⟨.chr c, List.mem_append_left _ ?_, by simp⟩)
  have notAmp : c ≠ '&' := by rcases special with rfl | rfl | ⟨rfl, -⟩ <;> decide
  exact List.mem_map.mpr ⟨c, hc, by simp [replacementTok, notAmp]⟩

/-- An ampersand stands for the path, so the path does not become the universal one. -/
theorem not_sound_of_ampersand (nl : '\n' ∉ root.toList) (harch : arch ∈ archs)
    (plain : ∀ c ∈ root.toList, ¬ Special d c) (amp : '&' ∈ root.toList) :
    ¬ RewriteSound d root arch := by
  rintro ⟨f, hf, sound⟩
  rw [compile_plain nl harch plain] at hf
  have nl' : '\n' ∉ root.toList ++ '-' :: arch.toList := fun h => by
    rcases List.mem_append.mp h with h | h
    · exact nl h
    · exact arch_ordinary harch _ h (by decide)
  have same := sound _ nl'
  rw [← Option.some.inj hf] at same
  have replaced := (replaceAll_self (by simp)).symm.trans (same.trans (replaceAll_self (by simp)))
  rw [expand_replacementToks] at replaced
  have longer := length_flatMap_ampersand (l := root.toList)
    (m := root.toList ++ '-' :: arch.toList) ?_
  · have counted := List.count_pos_iff.mpr amp
    rw [List.append_cancel_right replaced] at longer
    omega
  · have positive := List.length_pos_of_mem amp
    simp only [List.length_append, List.length_cons]
    omega

/-- **The rewriting is sound exactly for roots without parentheses and ampersands**, nor bars
where these separate alternatives. -/
theorem rewrite_sound_iff (nl : '\n' ∉ root.toList) (harch : arch ∈ archs) :
    RewriteSound d root arch ↔ ∀ c ∈ root.toList, ¬ Special d c ∧ c ≠ '&' := by
  constructor
  · intro sound c hc
    have plain : ∀ c ∈ root.toList, ¬ Special d c := fun a ha special =>
      not_sound_of_special nl harch ha special sound
    exact ⟨plain c hc, fun amp => not_sound_of_ampersand nl harch plain (amp ▸ hc) sound⟩
  · intro h
    refine ⟨_, compile_plain nl harch fun c hc => (h c hc).1, fun line _ => ?_⟩
    rw [expand_replacementToks, flatMap_of_no_ampersand fun amp => (h _ amp).2 rfl]
    rfl

end Compiled

/-! ### Two checkouts -/

/-- A path with none of the three characters. -/
theorem rewrite_home :
    RewriteSound ⟨true⟩ "/Users/build/mapnik-packaging/osx/out/build-cpp11-libcpp"
      "armv7-iphoneos" := by
  have plain : "/Users/build/mapnik-packaging/osx/out/build-cpp11-libcpp".toList.all
      (fun c => ¬ Special ⟨true⟩ c ∧ c ≠ '&') = true := by decide
  exact (rewrite_sound_iff (by decide) (by decide)).mpr fun c hc =>
    of_decide_eq_true (List.all_eq_true.mp plain c hc)

/-- In `/tmp/osx(1)` the program leaves the path of an architecture as it is. -/
theorem rewrite_parentheses :
    (compile ⟨false⟩ (rewriteProgram "/tmp/osx(1)" "armv7-iphoneos")).map
        (· "prefix=/tmp/osx(1)-armv7-iphoneos".toList)
      = some "prefix=/tmp/osx(1)-armv7-iphoneos".toList ∧
    ¬ RewriteSound ⟨false⟩ "/tmp/osx(1)" "armv7-iphoneos" :=
  ⟨by decide, not_sound_of_special (c := '(') (by decide) (by decide) (by decide) (.inl rfl)⟩

end MapnikPackaging
