import Mathlib.Algebra.Order.Field.Power
import Mathlib.Data.Int.Log
import Mathlib.Data.Rat.Floor
import Mathlib.Tactic.FieldSimp
import Mathlib.Tactic.Linarith
import Mathlib.Tactic.Positivity
import Mathlib.Tactic.Ring

/-!
# Rounding to nearest, in binary and in decimal

Numbers are nonnegative rationals; a sign is kept beside them by whoever uses this. A binary
`Format` has a precision, gradual underflow at `emin` and an upper end `emax`. `scientific k q` is
`q` in scientific notation with `k` digits behind the first, as an integer of `k + 1` digits and an
exponent.

Everything is computed on `ℚ`, exactly, so the definitions can be evaluated.

## Main definitions

* `halfEven` — the nearest integer, ties to even
* `Format.ulp`, `Format.round` — the last place of a number, and the nearest number of the format
* `scientific` — the nearest number with a given count of decimal digits

## Main results

* `Format.abs_sub_round_le_of_normal` — half a unit in the last place, as a relative error
* `scientific_bounds` — the digits are as many as was asked for
* `scientific_eq` — a decimal is recovered from any number near enough to it
-/

namespace Rounding

/-! ### The nearest integer -/

/-- The nearest integer, and the even one of two that are equally near. -/
def halfEven (q : ℚ) : ℤ :=
  let n := ⌊q⌋
  if q - n < 1 / 2 then n
  else if 1 / 2 < q - n then n + 1
  else if n % 2 = 0 then n else n + 1

theorem abs_sub_halfEven_le (q : ℚ) : |q - halfEven q| ≤ 1 / 2 := by
  have hlow := Int.floor_le q
  have hhigh := Int.lt_floor_add_one q
  simp only [halfEven]
  split_ifs with h h' h'' <;> push_cast <;> rw [abs_le] <;> constructor <;> linarith

/-- An integer less than one half away is the one that is found. -/
theorem halfEven_eq {q : ℚ} {n : ℤ} (h : |q - n| < 1 / 2) : halfEven q = n := by
  have hq := abs_sub_halfEven_le q
  rw [abs_le] at hq
  rw [abs_lt] at h
  have hlow : (halfEven q : ℚ) < n + 1 := by linarith
  have hhigh : (n : ℚ) < halfEven q + 1 := by linarith
  have hlow' : halfEven q < n + 1 := by exact_mod_cast hlow
  have hhigh' : n < halfEven q + 1 := by exact_mod_cast hhigh
  omega

theorem floor_le_halfEven (q : ℚ) : ⌊q⌋ ≤ halfEven q := by
  simp only [halfEven]
  split_ifs <;> omega

theorem le_halfEven {q : ℚ} {n : ℤ} (h : n ≤ q) : n ≤ halfEven q :=
  (Int.le_floor.mpr h).trans (floor_le_halfEven q)

theorem halfEven_le {q : ℚ} {n : ℤ} (h : q ≤ n) : halfEven q ≤ n := by
  have hq := (abs_le.mp (abs_sub_halfEven_le q)).1
  have hlt : (halfEven q : ℚ) < n + 1 := by linarith
  exact Int.lt_add_one_iff.mp (by exact_mod_cast hlt)

@[simp] theorem halfEven_zero : halfEven 0 = 0 := halfEven_eq (by norm_num)

/-! ### Binary formats -/

/-- A binary floating-point format. -/
structure Format where
  /-- The binary digits of a significand. -/
  prec : ℕ
  /-- The exponent of the last place of the smallest numbers. -/
  emin : ℤ
  /-- Numbers stay below two to this power. -/
  emax : ℤ

namespace Format

variable (F : Format) {q : ℚ}

/-- The unit in the last place at `q`. -/
def ulp (q : ℚ) : ℚ := 2 ^ max (Int.log 2 q - (F.prec - 1)) F.emin

/-- The multiple of the last place nearest to `q`. -/
def round (q : ℚ) : ℚ := halfEven (q / F.ulp q) * F.ulp q

theorem ulp_pos (q : ℚ) : 0 < F.ulp q := by
  rw [ulp]
  positivity

@[simp] theorem round_zero : F.round 0 = 0 := by simp [round]

theorem round_nonneg (h : 0 ≤ q) : 0 ≤ F.round q := by
  have hn : 0 ≤ halfEven (q / F.ulp q) := by
    refine le_halfEven ?_
    rw [Int.cast_zero]
    exact div_nonneg h (F.ulp_pos q).le
  exact mul_nonneg (by exact_mod_cast hn) (F.ulp_pos q).le

theorem abs_sub_round_le (q : ℚ) : |q - F.round q| ≤ F.ulp q / 2 := by
  have hu := F.ulp_pos q
  have hq : q = q / F.ulp q * F.ulp q := (div_mul_cancel₀ q hu.ne').symm
  calc |q - F.round q|
      = |q / F.ulp q * F.ulp q - halfEven (q / F.ulp q) * F.ulp q| := by rw [← hq, round]
    _ = |q / F.ulp q - halfEven (q / F.ulp q)| * F.ulp q := by
        rw [← sub_mul, abs_mul, abs_of_pos hu]
    _ ≤ 1 / 2 * F.ulp q := by gcongr; exact abs_sub_halfEven_le _
    _ = F.ulp q / 2 := by ring

/-- Above the subnormal numbers the last place is a fixed fraction of the number at most. -/
theorem ulp_le_of_normal (h : (2 : ℚ) ^ (F.emin + (F.prec - 1)) ≤ q) :
    F.ulp q ≤ q * 2 ^ (1 - F.prec : ℤ) := by
  have hpos : 0 < q := lt_of_lt_of_le (by positivity) h
  have hlog : F.emin + (F.prec - 1) ≤ Int.log 2 q :=
    (Int.zpow_le_iff_le_log one_lt_two hpos).mp (by exact_mod_cast h)
  have hle : ((2 : ℕ) : ℚ) ^ Int.log 2 q ≤ q := Int.zpow_log_le_self one_lt_two hpos
  rw [ulp, max_eq_left (by omega), show Int.log 2 q - (F.prec - 1 : ℤ)
    = Int.log 2 q + (1 - F.prec) by ring, zpow_add₀ two_ne_zero]
  push_cast at hle
  gcongr

/-- **Relative error.** Above the subnormal numbers, rounding moves a number by a fraction of
itself that the precision gives. -/
theorem abs_sub_round_le_of_normal (h : (2 : ℚ) ^ (F.emin + (F.prec - 1)) ≤ q) :
    |q - F.round q| ≤ q / 2 ^ F.prec := by
  calc |q - F.round q|
      ≤ F.ulp q / 2 := F.abs_sub_round_le q
    _ ≤ q * 2 ^ (1 - F.prec : ℤ) / 2 := by gcongr; exact F.ulp_le_of_normal h
    _ = q / 2 ^ F.prec := by
        rw [sub_eq_add_neg, zpow_add₀ two_ne_zero, zpow_neg, zpow_natCast]
        ring

end Format

/-! ### Decimal digits -/

/-- `q` with `k` decimal digits behind the first: the digits as one integer, and the exponent of
the first digit. -/
def scientific (k : ℕ) (q : ℚ) : ℤ × ℤ :=
  let e := Int.log 10 q
  let n := halfEven (q * 10 ^ (k - e : ℤ))
  if n = 10 ^ (k + 1) then (10 ^ k, e + 1) else (n, e)

variable {k : ℕ} {q : ℚ}

theorem log_eq {e : ℤ} (hlow : (10 : ℚ) ^ e ≤ q) (hhigh : q < 10 ^ (e + 1)) :
    Int.log 10 q = e := by
  have hpos : 0 < q := lt_of_lt_of_le (by positivity) hlow
  have hle : e ≤ Int.log 10 q :=
    (Int.zpow_le_iff_le_log (by norm_num) hpos).mp (by exact_mod_cast hlow)
  have hlt : Int.log 10 q < e + 1 :=
    (Int.lt_zpow_iff_log_lt (by norm_num) hpos).mp (by exact_mod_cast hhigh)
  omega

/-- What is rounded to an integer has as many digits in front of the point as are asked for. -/
theorem scaled_bounds (hq : 0 < q) :
    (10 : ℚ) ^ k ≤ q * 10 ^ (k - Int.log 10 q : ℤ) ∧
      q * 10 ^ (k - Int.log 10 q : ℤ) < 10 ^ (k + 1) := by
  have hlow : ((10 : ℕ) : ℚ) ^ Int.log 10 q ≤ q := Int.zpow_log_le_self (by norm_num) hq
  have hhigh : q < ((10 : ℕ) : ℚ) ^ (Int.log 10 q + 1) :=
    Int.lt_zpow_succ_log_self (by norm_num) q
  push_cast at hlow hhigh
  have hscale : (0 : ℚ) < 10 ^ (k - Int.log 10 q : ℤ) := by positivity
  constructor
  · calc (10 : ℚ) ^ k = 10 ^ Int.log 10 q * 10 ^ (k - Int.log 10 q : ℤ) := by
          rw [← zpow_add₀ (by norm_num), add_sub_cancel, zpow_natCast]
      _ ≤ q * 10 ^ (k - Int.log 10 q : ℤ) := by gcongr
  · calc q * 10 ^ (k - Int.log 10 q : ℤ)
        < 10 ^ (Int.log 10 q + 1) * 10 ^ (k - Int.log 10 q : ℤ) := by gcongr
      _ = 10 ^ (k + 1) := by
          rw [← zpow_add₀ (by norm_num), ← zpow_natCast]
          congr 1
          push_cast
          ring

theorem scientific_bounds (hq : 0 < q) :
    10 ^ k ≤ (scientific k q).1 ∧ (scientific k q).1 < 10 ^ (k + 1) := by
  obtain ⟨hlow, hhigh⟩ := scaled_bounds (k := k) hq
  have hn : 10 ^ k ≤ halfEven (q * 10 ^ (k - Int.log 10 q : ℤ)) :=
    le_halfEven (by exact_mod_cast hlow)
  have hn' : halfEven (q * 10 ^ (k - Int.log 10 q : ℤ)) ≤ 10 ^ (k + 1) :=
    halfEven_le (by exact_mod_cast hhigh.le)
  simp only [scientific]
  split_ifs with h
  · exact ⟨le_rfl, pow_lt_pow_right₀ (by norm_num) k.lt_succ_self⟩
  · exact ⟨hn, lt_of_le_of_ne hn' h⟩

/-- **Decimals survive.** A number within one part in `10 ^ (k + 2)` of a decimal with `k + 1`
digits has that decimal for its scientific notation. A power of ten needs the care: the number
may have ended up just below it, with one digit less in front of the point. -/
theorem scientific_eq {n e : ℤ} (hlow : 10 ^ k ≤ n) (hhigh : n < 10 ^ (k + 1))
    (h : |q - n * 10 ^ (e - k : ℤ)| ≤ n * 10 ^ (e - k : ℤ) / 10 ^ (k + 2)) :
    scientific k q = (n, e) := by
  obtain ⟨c, hc⟩ : ∃ c, c = q * 10 ^ (k - e : ℤ) := ⟨_, rfl⟩
  have hinv : (10 : ℚ) ^ (e - k : ℤ) * 10 ^ (k - e : ℤ) = 1 := by
    rw [← zpow_add₀ (by norm_num)]
    simp
  have hq : q = c * 10 ^ (e - k : ℤ) := by
    rw [hc, mul_assoc, mul_comm ((10 : ℚ) ^ (k - e : ℤ)), hinv, mul_one]
  have hu : (0 : ℚ) < 10 ^ (e - k : ℤ) := by positivity
  -- the same bound, counted in units of the last digit
  have hcn : |c - n| ≤ n / 10 ^ (k + 2) := by
    rw [hq, ← sub_mul, abs_mul, abs_of_pos hu, mul_div_right_comm] at h
    exact le_of_mul_le_mul_right h hu
  have hp : (0 : ℚ) < 10 ^ k := by positivity
  have hlowQ : (10 : ℚ) ^ k ≤ n := by exact_mod_cast hlow
  have hhighQ : (n : ℚ) + 1 ≤ 10 * 10 ^ k := by
    rw [← pow_succ']
    exact_mod_cast hhigh
  have hpow : (n : ℚ) / 10 ^ (k + 2) = n / 10 ^ k / 100 := by
    rw [pow_add, div_div]
    norm_num
  rw [hpow, abs_le] at hcn
  have hsmall : (n : ℚ) / 10 ^ k < 10 := by
    rw [div_lt_iff₀ hp]
    linarith
  have hexp : (10 : ℚ) ^ e = 10 ^ k * 10 ^ (e - k : ℤ) := by
    rw [← zpow_natCast, ← zpow_add₀ (by norm_num), add_sub_cancel]
  rcases le_or_gt ((10 : ℚ) ^ e) q with hge | hlt
  · have hlog : Int.log 10 q = e := by
      refine log_eq hge ?_
      rw [zpow_add_one₀ (by norm_num), hexp, hq, mul_right_comm]
      gcongr
      linarith
    have hround : halfEven (q * 10 ^ (k - e : ℤ)) = n := by
      rw [← hc]
      refine halfEven_eq ?_
      rw [abs_lt]
      constructor <;> linarith
    simp only [scientific, hlog, hround]
    rw [if_neg hhigh.ne]
  · -- only a power of ten can have been left from above
    have hcp : c < 10 ^ k := by
      rw [hq, hexp] at hlt
      exact lt_of_mul_lt_mul_right hlt hu.le
    have hn : n = 10 ^ k := by
      have hnQ : (n : ℚ) < 10 ^ k + 1 := by linarith
      have hn' : n < 10 ^ k + 1 := by exact_mod_cast hnQ
      omega
    have hone : (n : ℚ) / 10 ^ k = 1 := by
      rw [hn]
      push_cast
      exact div_self hp.ne'
    have hnQ : (n : ℚ) = 10 ^ k := by
      rw [hn]
      push_cast
      rfl
    have hone' : (1 : ℚ) ≤ 10 ^ k := one_le_pow₀ (by norm_num)
    rw [hone, hnQ] at hcn
    have hlog : Int.log 10 q = e - 1 := by
      refine log_eq ?_ (by rwa [sub_add_cancel])
      rw [zpow_sub_one₀ (by norm_num), hexp, hq, mul_right_comm]
      gcongr
      linarith
    have hround : halfEven (q * 10 ^ (k - (e - 1) : ℤ)) = 10 ^ (k + 1) := by
      refine halfEven_eq ?_
      rw [show (k : ℤ) - (e - 1) = (k - e) + 1 by ring, zpow_add_one₀ (by norm_num),
        ← mul_assoc, ← hc, abs_lt]
      push_cast
      rw [pow_succ]
      constructor <;> linarith
    simp only [scientific, hlog, hround]
    rw [if_pos trivial, sub_add_cancel, hn]

end Rounding
