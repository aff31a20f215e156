/-
Python's numbers, as far as division tells the interpreters apart.

An integer divided by an integer is floored by some interpreters and divided exactly by the
others. `str` prints integers in decimal and quotients with a fractional part, and `parseInt`
is `int` on a string.

* `parseInt_digits` — reading back what was printed.
* `fraction_value` — what the digits after the point say.
-/

import Mathlib.Data.Nat.Factorization.Basic
import Mathlib.Data.Rat.Floor
import Mathlib.Tactic.FieldSimp
import Mathlib.Tactic.NormNum
import Mathlib.Tactic.Ring

namespace Python

/-- Numbers: integers, and the exact quotients of true division. -/
inductive Number where
  | int (n : ℤ)
  | quot (q : ℚ)
deriving DecidableEq

namespace Number

def value : Number → ℚ
  | int n => n
  | quot q => q

/-- `a / b`; `exact` says that integers are divided exactly. -/
def div (exact : Bool) : Number → Number → Number
  | int a, int b => if exact then quot (a / b) else int (a.fdiv b)
  | a, b => quot (a.value / b.value)

/-- `a % b`. -/
def mod : Number → Number → Number
  | int a, int b => int (a.fmod b)
  | a, b => quot (a.value - b.value * ⌊a.value / b.value⌋)

end Number

/-! ### Printing -/

/-- The digits after the point of `num / den`, which is below one: at least one, and until
nothing is left. -/
def fraction : ℕ → ℕ → ℕ → List Char
  | 0, _, _ => []
  | n + 1, num, den =>
    (10 * num / den).digitChar ::
      if 10 * num % den = 0 then [] else fraction n (10 * num % den) den

/-- `str` of a number. A quotient in lowest terms has fewer digits after the point than its
denominator says, if they end at all. -/
def str : Number → List Char
  | .int n => (if n < 0 then ['-'] else []) ++ Nat.toDigits 10 n.natAbs
  | .quot q => (if q.num < 0 then ['-'] else []) ++ Nat.toDigits 10 (q.num.natAbs / q.den) ++
      '.' :: fraction q.den (q.num.natAbs % q.den) q.den

@[simp] theorem str_nat (n : ℕ) : str (.int n) = Nat.toDigits 10 n := by
  simp [str]

theorem fraction_digits (n num den : ℕ) : ∀ c ∈ fraction n num den, num < den → c.isDigit := by
  induction n generalizing num with
  | zero => simp [fraction]
  | succ n ih =>
    intro c hc below
    have one : 10 * num / den < 10 := Nat.div_lt_of_lt_mul (by omega)
    rw [fraction, List.mem_cons] at hc
    rcases hc with rfl | hc
    · simpa [Nat.isDigit_digitChar] using one
    · split at hc
      · cases hc
      · exact ih _ c hc (Nat.mod_lt _ (by omega))

/-- **The digits of a fraction that ends** are its value, in as many decimals as there are. -/
theorem fraction_value {n num den : ℕ} (below : num < den) (ends : den ∣ num * 10 ^ n)
    (fuel : 0 < n) :
    1 ≤ (fraction n num den).length ∧
      Nat.ofDigitChars 10 (fraction n num den) 0 * den
        = num * 10 ^ (fraction n num den).length := by
  induction n generalizing num with
  | zero => omega
  | succ n ih =>
    have digit : 10 * num / den < 10 := Nat.div_lt_of_lt_mul (by omega)
    have split := Nat.div_add_mod (10 * num) den
    rw [fraction, Nat.ofDigitChars_cons_digitChar_of_lt_ten digit]
    refine ⟨by simp, ?_⟩
    by_cases done : 10 * num % den = 0
    · simp only [done, if_true, Nat.ofDigitChars_nil, List.length_cons, List.length_nil]
      rw [Nat.mul_zero, Nat.zero_add, Nat.zero_add, pow_one, Nat.mul_comm, Nat.mul_comm num]
      omega
    · have later : den ∣ 10 * num % den * 10 ^ n := by
        rw [show num * 10 ^ (n + 1) = 10 * num * 10 ^ n by ring, ← split, add_mul] at ends
        refine (Nat.dvd_add_right ?_).mp ends
        exact Dvd.dvd.mul_right (Dvd.intro _ rfl) _
      have more : 0 < n := by
        refine Nat.pos_of_ne_zero fun h => done ?_
        subst h
        rw [pow_zero, Nat.mul_one] at later
        exact Nat.eq_zero_of_dvd_of_lt later (Nat.mod_lt _ (by omega))
      obtain ⟨-, rest⟩ := ih (Nat.mod_lt _ (by omega)) later more
      simp only [done, if_false, List.length_cons]
      rw [Nat.ofDigitChars_eq_ofDigitChars_zero, Nat.mul_zero, Nat.zero_add]
      generalize (fraction n (10 * num % den) den).length = k at rest ⊢
      calc (10 ^ k * (10 * num / den) + Nat.ofDigitChars 10 (fraction n (10 * num % den) den) 0) * den
          = 10 ^ k * (den * (10 * num / den)) + 10 * num % den * 10 ^ k := by
            rw [Nat.add_mul, rest]
            ring
        _ = (den * (10 * num / den) + 10 * num % den) * 10 ^ k := by ring
        _ = num * 10 ^ (k + 1) := by
            rw [split]
            ring

/-- A divisor of a power divides the power with itself as exponent. -/
theorem dvd_pow_self_of_dvd_pow {b d j : ℕ} (hb : b ≠ 0) (hd : d ≠ 0) (h : d ∣ b ^ j) :
    d ∣ b ^ d := by
  rw [← Nat.factorization_le_iff_dvd hd (pow_ne_zero _ hb)]
  intro p
  have bound := (Nat.factorization_le_iff_dvd hd (pow_ne_zero _ hb)).mpr h p
  rw [Nat.factorization_pow, Finsupp.smul_apply, smul_eq_mul] at bound ⊢
  rcases Nat.eq_zero_or_pos (b.factorization p) with none | some
  · rw [none, Nat.mul_zero] at bound
    omega
  · exact (Nat.factorization_lt p hd).le.trans (Nat.le_mul_of_pos_right d some)

/-- **How a quotient is printed** whose denominator divides a power of ten. -/
theorem str_quot (v : ℕ) {n j : ℕ} (ends : n ∣ 10 ^ j) :
    ∃ ds : List Char, str (.quot (v / n)) = Nat.toDigits 10 (v / n) ++ '.' :: ds ∧
      (∀ c ∈ ds, c.isDigit) ∧ 1 ≤ ds.length ∧
      Nat.ofDigitChars 10 ds 0 * n = v % n * 10 ^ ds.length := by
  have hn : n ≠ 0 := fun h => by simp [h] at ends
  generalize hq : (v / n : ℚ) = q
  have nonneg : 0 ≤ q := hq ▸ div_nonneg (Nat.cast_nonneg v) (Nat.cast_nonneg n)
  have cross : q.num.natAbs * n = v * q.den := by
    have num : (q.num.natAbs : ℚ) = q.num := by
      rw [Nat.cast_natAbs, abs_of_nonneg (Rat.num_nonneg.mpr nonneg)]
    have : (q.num.natAbs : ℚ) / q.den = v / n := by rw [num, Rat.num_div_den, hq]
    rw [div_eq_div_iff (by exact_mod_cast q.den_ne_zero) (by exact_mod_cast hn)] at this
    exact_mod_cast this
  have den : q.den ∣ n := (q.reduced.symm).dvd_of_dvd_mul_left ⟨v, by rw [cross, Nat.mul_comm]⟩
  have whole : q.num.natAbs / q.den = v / n := by
    rw [← Nat.mul_div_mul_right _ _ (Nat.pos_of_ne_zero hn), cross, Nat.mul_comm q.den,
      Nat.mul_div_mul_right _ _ q.den_pos]
  have rest : q.num.natAbs % q.den * n = v % n * q.den := by
    have hnum := Nat.div_add_mod q.num.natAbs q.den
    have hv := Nat.div_add_mod v n
    rw [whole] at hnum
    nlinarith
  obtain ⟨some, value⟩ := fraction_value (Nat.mod_lt q.num.natAbs q.den_pos)
    ((dvd_pow_self_of_dvd_pow (by omega) q.den_ne_zero (den.trans ends)).mul_left _) q.den_pos
  refine ⟨fraction q.den (q.num.natAbs % q.den) q.den, ?_, fun c hc =>
    fraction_digits _ _ _ c hc (Nat.mod_lt _ q.den_pos), some, ?_⟩
  · rw [str, if_neg (not_lt.mpr (Rat.num_nonneg.mpr nonneg)), whole, List.nil_append]
  · apply Nat.eq_of_mul_eq_mul_right q.den_pos
    rw [Nat.mul_right_comm, value, Nat.mul_right_comm, rest, Nat.mul_right_comm]

/-! ### Reading -/

/-- What `int` skips around a number. -/
def blanks : List Char := [' ', '\t', '\n', '\r', '\x0b', '\x0c']

def strip (s : List Char) : List Char :=
  ((s.dropWhile (· ∈ blanks)).reverse.dropWhile (· ∈ blanks)).reverse

def parseDigits (s : List Char) : Option ℤ :=
  if s ≠ [] ∧ s.all Char.isDigit then some ((Nat.ofDigitChars 10 s 0 : ℕ) : ℤ) else none

/-- `int` of a string. -/
def parseInt (s : List Char) : Option ℤ :=
  match strip s with
  | '-' :: ds => (parseDigits ds).map (- ·)
  | '+' :: ds => parseDigits ds
  | ds => parseDigits ds

theorem strip_digits {s : List Char} (digits : ∀ c ∈ s, c.isDigit) : strip s = s := by
  have keeps : ∀ t : List Char, (∀ c ∈ t, c.isDigit) → t.dropWhile (· ∈ blanks) = t := by
    intro t ht
    cases t with
    | nil => rfl
    | cons c t =>
      apply List.dropWhile_cons_of_neg
      intro blank
      have digit := ht c (by simp)
      simp only [blanks, List.mem_cons, List.not_mem_nil, or_false, decide_eq_true_eq] at blank
      rcases blank with rfl | rfl | rfl | rfl | rfl | rfl <;> exact absurd digit (by decide)
  rw [strip, keeps s digits, keeps _ (fun c hc => digits c (List.mem_reverse.mp hc)),
    List.reverse_reverse]

/-- **Digits are read as the number they print.** -/
theorem parseInt_digits {s : List Char} (nonempty : s ≠ []) (digits : ∀ c ∈ s, c.isDigit) :
    parseInt s = some ((Nat.ofDigitChars 10 s 0 : ℕ) : ℤ) := by
  have read : parseDigits s = some ((Nat.ofDigitChars 10 s 0 : ℕ) : ℤ) :=
    if_pos ⟨nonempty, List.all_eq_true.mpr digits⟩
  rw [parseInt, strip_digits digits]
  split
  · exact absurd (digits '-' (by simp)) (by decide)
  · exact absurd (digits '+' (by simp)) (by decide)
  · exact read

end Python
