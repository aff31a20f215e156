/-
Version numbers in `mapnik.py`.

`mapnik_version_string` takes a version number apart with `/`, which floors under Python 2 and
divides exactly under Python 3; the module admits interpreters of both kinds. Exact division
leaves points inside the components, and `mapnik_version_from_string` then reads the digits after
the first point as the minor version.

* `version_string_floored`, `version_string_exact` — what is printed.
* `version_inverse_iff` — when the two functions undo each other.
-/

import MapnikPackaging.Python.Numbers

namespace MapnikPackaging

open Python

/-! ### The two functions -/

/-- `ver_int in (25,26,27,31,32)`: the interpreters that get past the version test. -/
inductive Interpreter where
  | py25 | py26 | py27 | py31 | py32
deriving DecidableEq, Repr

/-- From Python 3 on `/` divides integers exactly. -/
def Interpreter.exactDivision : Interpreter → Bool
  | py25 | py26 | py27 => false
  | py31 | py32 => true

/-- `'%s.%s.%s'`. -/
def dotted (parts : List (List Char)) : List Char := ['.'].intercalate parts

/-- `mapnik_version_string`. -/
def mapnikVersionString (i : Interpreter) (version : ℤ) : List Char :=
  let patch_level := Number.mod (.int version) (.int 100)
  let minor_version :=
    Number.mod (Number.div i.exactDivision (.int version) (.int 100)) (.int 1000)
  let major_version := Number.div i.exactDivision (.int version) (.int 100000)
  dotted [str major_version, str minor_version, str patch_level]

/-- `mapnik_version_from_string`; a missing or malformed component raises. -/
def mapnikVersionFromString (version_string : List Char) : Option ℤ := do
  let n := version_string.splitOn '.'
  let major ← parseInt (← n[0]?)
  let minor ← parseInt (← n[1]?)
  let patch ← parseInt (← n[2]?)
  return major * 100000 + minor * 100 + patch

/-- The canonical string `a.b.c`. -/
def canonical (a b c : ℕ) : List Char :=
  dotted [Nat.toDigits 10 a, Nat.toDigits 10 b, Nat.toDigits 10 c]

/-! ### What is printed -/

theorem no_dot {s : List Char} (digits : ∀ c ∈ s, c.isDigit) : '.' ∉ s := fun h =>
  absurd (digits '.' h) (by decide)

theorem toDigits_digits (n : ℕ) : ∀ c ∈ Nat.toDigits 10 n, c.isDigit := fun _ hc =>
  Nat.isDigit_of_mem_toDigits (by omega) (by omega) hc

theorem splitOn_dotted {parts : List (List Char)} (nonempty : parts ≠ [])
    (digits : ∀ s ∈ parts, ∀ c ∈ s, c.isDigit) : (dotted parts).splitOn '.' = parts :=
  List.splitOn_intercalate '.' (fun s hs => no_dot (digits s hs)) nonempty

/-- Reading back components of digits. -/
theorem fromString_dotted {s₀ s₁ s₂ : List Char} {rest : List (List Char)}
    (digits : ∀ s ∈ s₀ :: s₁ :: s₂ :: rest, s ≠ [] ∧ ∀ c ∈ s, c.isDigit) :
    mapnikVersionFromString (dotted (s₀ :: s₁ :: s₂ :: rest)) =
      some ((Nat.ofDigitChars 10 s₀ 0 * 100000 + Nat.ofDigitChars 10 s₁ 0 * 100 +
        Nat.ofDigitChars 10 s₂ 0 : ℕ) : ℤ) := by
  have parts := splitOn_dotted (by simp) fun s hs => (digits s hs).2
  have read : ∀ s ∈ s₀ :: s₁ :: s₂ :: rest, parseInt s = some ((Nat.ofDigitChars 10 s 0 : ℕ) : ℤ) :=
    fun s hs => parseInt_digits (digits s hs).1 (digits s hs).2
  simp only [mapnikVersionFromString, parts]
  simp [read s₀ (by simp), read s₁ (by simp), read s₂ (by simp)]

/-- Floor division prints the components of the number. -/
theorem version_string_floored {i : Interpreter} (floor : i.exactDivision = false) (v : ℕ) :
    mapnikVersionString i v = canonical (v / 100000) (v / 100 % 1000) (v % 100) := by
  have patch : Number.mod (.int v) (.int 100) = .int ((v % 100 : ℕ) : ℤ) := by
    rw [Number.mod, Int.fmod_eq_emod_of_nonneg _ (by omega)]
    norm_cast
  have minor : Number.mod (Number.div false (.int v) (.int 100)) (.int 1000)
      = .int ((v / 100 % 1000 : ℕ) : ℤ) := by
    simp only [Number.div, Number.mod, Bool.false_eq_true, if_false]
    rw [Int.fdiv_eq_ediv_of_nonneg _ (by omega), Int.fmod_eq_emod_of_nonneg _ (by omega)]
    norm_cast
  have major : Number.div false (.int v) (.int 100000) = .int ((v / 100000 : ℕ) : ℤ) := by
    simp only [Number.div, Bool.false_eq_true, if_false]
    rw [Int.fdiv_eq_ediv_of_nonneg _ (by omega)]
    norm_cast
  simp only [mapnikVersionString, floor, patch, minor, major, str_nat]
  rfl

theorem hundreds_eq (v : ℕ) : v % 100000 / 100 = v / 100 % 1000 :=
  Nat.mod_mul_right_div_self v 100 1000

/-- Exact division leaves fractions in the first two components. -/
theorem version_string_exact {i : Interpreter} (exact : i.exactDivision = true) (v : ℕ) :
    ∃ f g : List Char, (∀ c ∈ f, c.isDigit) ∧ (∀ c ∈ g, c.isDigit) ∧ 1 ≤ f.length ∧ g ≠ [] ∧
      Nat.ofDigitChars 10 f 0 * 100000 = v % 100000 * 10 ^ f.length ∧
      mapnikVersionString i v = dotted [Nat.toDigits 10 (v / 100000), f,
        Nat.toDigits 10 (v / 100 % 1000), g, Nat.toDigits 10 (v % 100)] := by
  have patch : Number.mod (.int v) (.int 100) = .int ((v % 100 : ℕ) : ℤ) := by
    rw [Number.mod, Int.fmod_eq_emod_of_nonneg _ (by omega)]
    norm_cast
  have major : Number.div true (.int v) (.int 100000) = .quot ((v : ℕ) / (100000 : ℕ)) := by
    simp [Number.div]
  -- taking away whole thousands leaves the hundredths of the remainder
  have minor : Number.mod (Number.div true (.int v) (.int 100)) (.int 1000)
      = .quot (((v % 100000 : ℕ) : ℚ) / (100 : ℕ)) := by
    have whole : ⌊((v : ℚ) / 100) / 1000⌋ = ((v / 100000 : ℕ) : ℤ) := by
      rw [div_div, show (100 * 1000 : ℚ) = ((100000 : ℕ) : ℚ) by norm_num]
      exact Rat.floor_natCast_div_natCast v 100000
    have split : ((100000 * (v / 100000) + v % 100000 : ℕ) : ℚ) = v := by
      rw [Nat.div_add_mod]
    simp only [Number.div, Number.mod, Number.value, if_true, Int.cast_natCast, Int.cast_ofNat, whole]
    push_cast at split ⊢
    congr 1
    linarith
  obtain ⟨f, hf, digitsF, someF, valueF⟩ := str_quot v (n := 100000) (j := 5) ⟨1, by norm_num⟩
  obtain ⟨g, hg, digitsG, someG, -⟩ := str_quot (v % 100000) (n := 100) (j := 2) ⟨1, by norm_num⟩
  refine ⟨f, g, digitsF, digitsG, someF, List.length_pos_iff.mp someG, valueF, ?_⟩
  simp only [mapnikVersionString, exact, patch, minor, major, str_nat, hf, hg, hundreds_eq]
  simp [dotted, List.intercalate]

/-! ### Inverse -/

theorem fromString_canonical (a b c : ℕ) :
    mapnikVersionFromString (canonical a b c) = some ((a * 100000 + b * 100 + c : ℕ) : ℤ) := by
  rw [canonical, fromString_dotted]
  · simp only [Nat.ofDigitChars_ten_toDigits]
  · intro s hs
    simp only [List.mem_cons, List.not_mem_nil, or_false] at hs
    rcases hs with rfl | rfl | rfl <;> exact ⟨Nat.toDigits_ne_nil, toDigits_digits _⟩

/-- The digits of a proper fraction never stand for its hundreds. -/
theorem fraction_not_hundreds {m r k : ℕ} (some : 1 ≤ k) (value : m * 100000 = r * 10 ^ k)
    (h : m * 100 + r / 100 = r) : r = 0 := by
  obtain rfl | rfl | three : k = 1 ∨ k = 2 ∨ 3 ≤ k := by omega
  · omega
  · omega
  · have large : r * 10 ^ 3 ≤ r * 10 ^ k :=
      Nat.mul_le_mul_left r (Nat.pow_le_pow_right (by omega) three)
    rw [← value] at large
    rcases Nat.eq_zero_or_pos m with none | some
    · omega
    · omega

theorem roundtrip_floored {i : Interpreter} (floor : i.exactDivision = false) (v : ℕ) :
    mapnikVersionFromString (mapnikVersionString i v) = some (v : ℤ) := by
  rw [version_string_floored floor, fromString_canonical]
  congr 2
  omega

theorem roundtrip_exact {i : Interpreter} (exact : i.exactDivision = true) (v : ℕ) :
    mapnikVersionFromString (mapnikVersionString i v) = some (v : ℤ) ↔ v % 100000 = 0 := by
  obtain ⟨f, g, digitsF, digitsG, someF, someG, value, printed⟩ := version_string_exact exact v
  have digits : ∀ s ∈ Nat.toDigits 10 (v / 100000) :: f :: Nat.toDigits 10 (v / 100 % 1000) ::
      [g, Nat.toDigits 10 (v % 100)], s ≠ [] ∧ ∀ c ∈ s, c.isDigit := by
    intro s hs
    simp only [List.mem_cons, List.not_mem_nil, or_false] at hs
    rcases hs with rfl | rfl | rfl | rfl | rfl
    · exact ⟨Nat.toDigits_ne_nil, toDigits_digits _⟩
    · exact ⟨List.length_pos_iff.mp someF, digitsF⟩
    · exact ⟨Nat.toDigits_ne_nil, toDigits_digits _⟩
    · exact ⟨someG, digitsG⟩
    · exact ⟨Nat.toDigits_ne_nil, toDigits_digits _⟩
  have read := fromString_dotted digits
  rw [printed, read, Option.some.injEq, Nat.cast_inj]
  simp only [Nat.ofDigitChars_ten_toDigits]
  have whole := Nat.div_add_mod v 100000
  rw [← hundreds_eq]
  constructor
  · intro h
    apply fraction_not_hundreds someF value
    omega
  · intro none
    rw [none, Nat.zero_mul] at value
    rw [none] at whole ⊢
    rw [(Nat.mul_eq_zero.mp value).resolve_right (by norm_num), Nat.zero_mul, Nat.zero_div,
      Nat.mul_comm]
    exact whole

/-- **When the two functions undo each other.** Flooring interpreters recover every number and
every canonical string; exact ones recover the multiples of 100000 and no string. -/
theorem version_inverse_iff (i : Interpreter) :
    (∀ v : ℕ, mapnikVersionFromString (mapnikVersionString i v) = some (v : ℤ) ↔
      i.exactDivision = false ∨ v % 100000 = 0) ∧
    ∀ (a : ℕ) (b : Fin 1000) (c : Fin 100),
      (mapnikVersionFromString (canonical a b c)).map (mapnikVersionString i)
        = some (canonical a b c) ↔ i.exactDivision = false := by
  cases division : i.exactDivision with
  | false =>
    refine ⟨fun v => by simp [roundtrip_floored division v], fun a b c => ?_⟩
    rw [fromString_canonical, Option.map_some, version_string_floored division]
    have major : (a * 100000 + b * 100 + c) / 100000 = a := by omega
    have minor : (a * 100000 + b * 100 + c) / 100 % 1000 = b := by omega
    have patch : (a * 100000 + b * 100 + c) % 100 = c := by omega
    simp only [major, minor, patch]
  | true =>
    refine ⟨fun v => by simp [roundtrip_exact division v], fun a b c => ?_⟩
    obtain ⟨f, g, digitsF, digitsG, -, -, -, printed⟩ :=
      version_string_exact division (a * 100000 + b * 100 + c)
    rw [fromString_canonical, Option.map_some, printed]
    simp only [Option.some.injEq, Bool.true_eq_false, iff_false]
    intro same
    have parts := congrArg (fun s => (s.splitOn '.').length) same
    rw [canonical, splitOn_dotted (by simp), splitOn_dotted (by simp)] at parts
    · exact absurd parts (by simp)
    · intro s hs
      simp only [List.mem_cons, List.not_mem_nil, or_false] at hs
      rcases hs with rfl | rfl | rfl <;> exact toDigits_digits _
    · intro s hs
      simp only [List.mem_cons, List.not_mem_nil, or_false] at hs
      rcases hs with rfl | rfl | rfl | rfl | rfl <;>
        first | exact toDigits_digits _ | assumption

/-- Python 3.1 prints 2.3.0 as `2.003.3.0.0` and reads it back as another version. -/
theorem version_python31 :
    mapnikVersionFromString (mapnikVersionString .py31 200300) = some 200303 ∧
      ¬ ∀ (i : Interpreter) (v : ℕ),
        mapnikVersionFromString (mapnikVersionString i v) = some (v : ℤ) := by
  have read : mapnikVersionFromString (mapnikVersionString .py31 200300) = some 200303 := by
    decide +kernel
  refine ⟨read, fun inverse => ?_⟩
  have same := inverse .py31 200300
  rw [Nat.cast_ofNat, read] at same
  exact absurd same (by decide)

end MapnikPackaging
