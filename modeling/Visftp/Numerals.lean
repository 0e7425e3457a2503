import Mathlib.Data.List.DropRight
import Mathlib.Data.NNRat.Floor
import Mathlib.Tactic.NormNum
import Visftp.CString
import Visftp.Lib.Rounding

/-!
# Numbers of the text store

A number token goes through `atof` to a `double`, from there to a `float`, and is written with
`%g`, that is with six significant digits. A decimal of six digits survives this, whichever digits
they are; what it cannot get back is a text that `%g` writes in another way.

A `double` and a `float` are kept exactly, as a sign and a magnitude, which is a nonnegative
rational. No NaN comes out of a number token.

## Main definitions

* `CFloat`, `CFloat.ofExact`, `CFloat.toFloat` — floating-point values, and how they are rounded
* `atof` — the value of a number token
* `printG` — `%g`
* `Numeral` — six significant digits that `%g` writes without an exponent

## Main results

* `Numeral.atof_text` — the text of a numeral is read as its value
* `Numeral.printG_value` — the `float` nearest to a numeral is printed as the numeral
-/

namespace Visftp

open CString Rounding

/-! ### Floating-point values -/

/-- A `double` or a `float` that is not a NaN. -/
inductive CFloat
  /-- A number: its sign bit and its magnitude. -/
  | finite (neg : Bool) (mag : ℚ≥0)
  /-- An infinity. -/
  | inf (neg : Bool)
  deriving DecidableEq

/-- `double`. -/
def binary64 : Format := ⟨53, -1074, 1024⟩

/-- `float`. -/
def binary32 : Format := ⟨24, -149, 128⟩

namespace CFloat

/-- The value of a format nearest to an exact number. -/
def ofExact (F : Format) (neg : Bool) (mag : ℚ≥0) : CFloat :=
  if F.round mag < 2 ^ F.emax then finite neg (F.round mag).toNNRat else inf neg

/-- The conversion of a `double` to `float`. -/
def toFloat : CFloat → CFloat
  | finite neg mag => ofExact binary32 neg mag
  | inf neg => inf neg

/-- The conversion of a `float` to `int`, which cuts off the fraction. What is out of range gives
the smallest `int`. -/
def toInt : CFloat → ℤ
  | finite neg mag =>
    let n : ℤ := if neg then -⌊mag⌋₊ else ⌊mag⌋₊
    if -2 ^ 31 ≤ n ∧ n < 2 ^ 31 then n else -2 ^ 31
  | inf _ => -2 ^ 31

end CFloat

/-- `atof`, on what can be a number token: a sign, digits, and at most one point among them. There
is no blank in front, no exponent and no hexadecimal prefix to deal with. -/
def atof (t : Bytes) : CFloat :=
  let neg := byteAt t 0 == 45
  let t := if byteAt t 0 = 45 ∨ byteAt t 0 = 43 then t.tail else t
  let ip := t.takeWhile isdigit
  let rest := t.dropWhile isdigit
  let fp := if byteAt rest 0 = 46 then rest.tail.takeWhile isdigit else []
  if ip = [] ∧ fp = [] then .finite false 0
  else .ofExact binary64 neg (digitsValue (ip ++ fp) / 10 ^ fp.length)

/-! ### Printing -/

/-- The character of a digit. -/
def digitChar (d : ℕ) : Byte := UInt8.ofNat (48 + d)

/-- The last `k` decimal digits of `n`. -/
def lastDigits : ℕ → ℕ → Bytes
  | 0, _ => []
  | k + 1, n => lastDigits k (n / 10) ++ [digitChar (n % 10)]

/-- A minus sign where there is one. -/
def signText (neg : Bool) : Bytes := if neg then [45] else []

/-- A decimal point and the digits behind it, or nothing when there is none. -/
def pointText (frac : Bytes) : Bytes := if frac = [] then [] else 46 :: frac

/-- The digits behind the point of `n / 10 ^ k`, without the zeros at the end. -/
def fracDigits (n k : ℕ) : Bytes := (lastDigits k n).rdropWhile (· == 48)

/-- `n / 10 ^ k` with its `k` digits behind the point, less the zeros at the end. -/
def fixedText (n k : ℕ) : Bytes := decimal (n / 10 ^ k) ++ pointText (fracDigits n k)

/-- The exponent of `%e`: a sign and two digits at least. -/
def exponentText (e : ℤ) : Bytes :=
  101 :: (if e < 0 then 45 else 43) ::
    ((if e.natAbs < 10 then [48] else []) ++ decimal e.natAbs)

/-- `%g`. -/
def printG : CFloat → Bytes
  | .inf neg => signText neg ++ ascii "inf"
  | .finite neg mag =>
    signText neg ++
      if mag = 0 then ascii "0"
      else
        let (n, e) := scientific 5 mag
        if -4 ≤ e ∧ e < 6 then fixedText n.toNat (5 - e).toNat
        else fixedText n.toNat 5 ++ exponentText e

/-! ### The digits of a text -/

theorem isdigit_digitChar {d : ℕ} (h : d < 10) : isdigit (digitChar d) = true := by
  have hall : ∀ d < 10, isdigit (digitChar d) = true := by decide
  exact hall d h

theorem toNat_digitChar {d : ℕ} (h : d < 10) : (digitChar d).toNat - 48 = d := by
  have hall : ∀ d < 10, (digitChar d).toNat - 48 = d := by decide
  exact hall d h

theorem decimal_eq (n : ℕ) :
    decimal n = if n < 10 then [digitChar n] else decimal (n / 10) ++ [digitChar (n % 10)] := by
  have hdigit : ∀ d < 10, UInt8.ofNat (Nat.digitChar d).toNat = digitChar d := by decide
  rw [decimal, Nat.toDigits_eq_if (by norm_num)]
  split_ifs with h
  · simp [hdigit n h]
  · simp [decimal, hdigit (n % 10) (Nat.mod_lt n (by norm_num))]

theorem decimal_ne_nil (n : ℕ) : decimal n ≠ [] := by
  rw [decimal_eq]
  split_ifs <;> simp

theorem digitsValue_concat (ds : Bytes) (d : Byte) :
    digitsValue (ds ++ [d]) = 10 * digitsValue ds + (d.toNat - 48) := by
  simp [digitsValue]

theorem isdigit_of_mem_decimal (n : ℕ) : ∀ b ∈ decimal n, isdigit b = true := by
  induction n using Nat.strong_induction_on with
  | _ n ih =>
    intro b hb
    rw [decimal_eq] at hb
    split_ifs at hb with h
    · rw [List.mem_singleton.mp hb]
      exact isdigit_digitChar h
    · rcases List.mem_append.mp hb with hb | hb
      · exact ih (n / 10) (by omega) b hb
      · rw [List.mem_singleton.mp hb]
        exact isdigit_digitChar (Nat.mod_lt n (by norm_num))

theorem digitsValue_decimal (n : ℕ) : digitsValue (decimal n) = n := by
  induction n using Nat.strong_induction_on with
  | _ n ih =>
    rw [decimal_eq]
    split_ifs with h
    · simpa [digitsValue] using toNat_digitChar h
    · rw [digitsValue_concat, ih (n / 10) (by omega),
        toNat_digitChar (Nat.mod_lt n (by norm_num))]
      omega

theorem isdigit_of_mem_lastDigits (k n : ℕ) : ∀ b ∈ lastDigits k n, isdigit b = true := by
  induction k generalizing n with
  | zero => simp [lastDigits]
  | succ k ih =>
    intro b hb
    rcases List.mem_append.mp hb with hb | hb
    · exact ih (n / 10) b hb
    · rw [List.mem_singleton.mp hb]
      exact isdigit_digitChar (Nat.mod_lt n (by norm_num))

@[simp] theorem length_lastDigits (k n : ℕ) : (lastDigits k n).length = k := by
  induction k generalizing n with
  | zero => rfl
  | succ k ih => simp [lastDigits, ih]

/-- The digits in front of the point and those behind it are those of the number. -/
theorem digitsValue_decimal_append (n k : ℕ) :
    digitsValue (decimal (n / 10 ^ k) ++ lastDigits k n) = n := by
  induction k generalizing n with
  | zero => simp [lastDigits, digitsValue_decimal]
  | succ k ih =>
    rw [lastDigits, ← List.append_assoc, digitsValue_concat, pow_succ', ← Nat.div_div_eq_div_mul,
      ih, toNat_digitChar (Nat.mod_lt n (by norm_num))]
    omega

theorem digitsValue_append_zeros (ds : Bytes) (z : ℕ) :
    digitsValue (ds ++ List.replicate z 48) = digitsValue ds * 10 ^ z := by
  induction z with
  | zero => simp
  | succ z ih =>
    rw [List.replicate_succ', ← List.append_assoc, digitsValue_concat, ih, pow_succ]
    have hzero : (48 : Byte).toNat - 48 = 0 := rfl
    rw [hzero]
    ring

/-- The zeros that are not written. -/
theorem exists_zeros (n k : ℕ) : ∃ z, lastDigits k n = fracDigits n k ++ List.replicate z 48 := by
  refine ⟨((lastDigits k n).rtakeWhile (· == 48)).length, ?_⟩
  have hzeros : (lastDigits k n).rtakeWhile (· == 48)
      = List.replicate ((lastDigits k n).rtakeWhile (· == 48)).length 48 :=
    List.eq_replicate_length.mpr fun b hb => by simpa using List.mem_rtakeWhile_imp hb
  rw [← hzeros, fracDigits, List.rdropWhile_append_rtakeWhile]

theorem isdigit_of_mem_fracDigits (n k : ℕ) : ∀ b ∈ fracDigits n k, isdigit b = true :=
  fun b hb => isdigit_of_mem_lastDigits k n b ((List.rdropWhile_prefix _ _).subset hb)

/-- Leaving out zeros at the end does not change the number. -/
theorem digitsValue_fixed (n k : ℕ) :
    (digitsValue (decimal (n / 10 ^ k) ++ fracDigits n k) : ℚ) / 10 ^ (fracDigits n k).length
      = n / 10 ^ k := by
  obtain ⟨z, hz⟩ := exists_zeros n k
  have hlen : (fracDigits n k).length + z = k := by
    simpa using (congrArg List.length hz).symm
  have hval := digitsValue_decimal_append n k
  rw [hz, ← List.append_assoc, digitsValue_append_zeros] at hval
  rw [div_eq_div_iff (by positivity) (by positivity)]
  calc (digitsValue (decimal (n / 10 ^ k) ++ fracDigits n k) : ℚ) * 10 ^ k
      = digitsValue (decimal (n / 10 ^ k) ++ fracDigits n k) * 10 ^ z
          * 10 ^ (fracDigits n k).length := by
        rw [mul_assoc, ← pow_add, add_comm z, hlen]
    _ = n * 10 ^ (fracDigits n k).length := by
        congr 1
        exact_mod_cast hval

/-! ### Numerals -/

/-- Six significant digits, the first of them not zero, with the point in them, behind them or at
most four places in front of them: what `%g` writes without an exponent, zero aside. -/
structure Numeral where
  /-- The sign. -/
  neg : Bool
  /-- The digits, as one integer. -/
  digits : ℕ
  /-- How many of the digits are behind the point. -/
  places : ℕ
  /-- There are six digits, -/
  low : 10 ^ 5 ≤ digits
  /-- and no more. -/
  high : digits < 10 ^ 6
  /-- The number is not below `0.0001`. -/
  places_le : places ≤ 9

namespace Numeral

variable (m : Numeral)

/-- The magnitude. -/
def mag : ℚ≥0 := m.digits / 10 ^ m.places

/-- The text, without zeros at the end. -/
def text : Bytes := signText m.neg ++ fixedText m.digits m.places

/-- The `float` that is stored for the text. -/
def value : CFloat := (CFloat.ofExact binary64 m.neg m.mag).toFloat

end Numeral

/-- `atof` of an optional minus sign, digits, and a point with digits behind it. -/
theorem atof_text {neg : Bool} {ip fp : Bytes} (hne : ip ≠ [])
    (hip : ∀ b ∈ ip, isdigit b = true) (hfp : ∀ b ∈ fp, isdigit b = true) :
    atof (signText neg ++ (ip ++ pointText fp))
      = .ofExact binary64 neg (digitsValue (ip ++ fp) / 10 ^ fp.length) := by
  obtain ⟨d, ip', rfl⟩ := List.exists_cons_of_ne_nil hne
  have hd : isdigit d = true := hip d (List.mem_cons_self ..)
  have hminus : d ≠ 45 := fun h => by simp [h, isdigit] at hd
  have hplus : d ≠ 43 := fun h => by simp [h, isdigit] at hd
  -- the sign is the only thing in front of the digits
  have hneg : (byteAt (signText neg ++ (d :: ip' ++ pointText fp)) 0 == 45) = neg := by
    cases neg <;> simp [signText, byteAt, hminus]
  have hbody : (if byteAt (signText neg ++ (d :: ip' ++ pointText fp)) 0 = 45 ∨
      byteAt (signText neg ++ (d :: ip' ++ pointText fp)) 0 = 43
      then (signText neg ++ (d :: ip' ++ pointText fp)).tail
      else signText neg ++ (d :: ip' ++ pointText fp)) = d :: ip' ++ pointText fp := by
    cases neg <;> simp [signText, byteAt, hminus, hplus]
  have htake : (d :: ip' ++ pointText fp).takeWhile isdigit = d :: ip' := by
    rw [List.takeWhile_append_of_pos hip]
    rw [pointText]
    split_ifs <;> simp [isdigit]
  have hdrop : (d :: ip' ++ pointText fp).dropWhile isdigit = pointText fp := by
    rw [List.dropWhile_append_of_pos hip]
    rw [pointText]
    split_ifs <;> simp [isdigit]
  have hfrac : (if byteAt (pointText fp) 0 = 46 then (pointText fp).tail.takeWhile isdigit
      else []) = fp := by
    rw [pointText]
    split_ifs with h <;> simp_all [byteAt, List.takeWhile_eq_self_iff]
  simp only [atof, hneg, hbody, htake, hdrop, hfrac]
  rw [if_neg (by simp)]

theorem Numeral.atof_text (m : Numeral) : atof m.text = .ofExact binary64 m.neg m.mag := by
  rw [text, fixedText, Visftp.atof_text (decimal_ne_nil _) (isdigit_of_mem_decimal _)
    (isdigit_of_mem_fracDigits _ _)]
  congr 1
  have h := digitsValue_fixed m.digits m.places
  rw [← NNRat.coe_inj, mag]
  push_cast
  exact h

theorem two_zpow_le {e : ℤ} (h : e ≤ -17) : (2 : ℚ) ^ e ≤ 1 / 10 ^ 5 :=
  (zpow_le_zpow_right₀ one_le_two h).trans (by norm_num)

theorem le_two_zpow {e : ℤ} (h : 27 ≤ e) : (10 : ℚ) ^ 8 ≤ 2 ^ e :=
  le_trans (by norm_num) (zpow_le_zpow_right₀ one_le_two h)

/-- The stored `float` is within one part in ten million of the numeral. -/
theorem Numeral.exists_value (m : Numeral) :
    ∃ f : ℚ≥0, m.value = .finite m.neg f ∧ 0 < f ∧ |(f : ℚ) - m.mag| ≤ m.mag / 10 ^ 7 := by
  obtain ⟨x, hx⟩ : ∃ x : ℚ, x = m.mag := ⟨_, rfl⟩
  have hxdef : x = m.digits / 10 ^ m.places := by simp [hx, mag]
  have hlow : 1 / 10 ^ 4 ≤ x := by
    have hd : (10 ^ 5 : ℚ) ≤ m.digits := by exact_mod_cast m.low
    have hp : (10 ^ m.places : ℚ) ≤ 10 ^ 9 := pow_le_pow_right₀ (by norm_num) m.places_le
    rw [hxdef, div_le_div_iff₀ (by positivity) (by positivity)]
    calc (1 : ℚ) * 10 ^ m.places ≤ 10 ^ 9 := by linarith
      _ = 10 ^ 5 * 10 ^ 4 := by norm_num
      _ ≤ m.digits * 10 ^ 4 := by gcongr
  have hhigh : x < 10 ^ 6 := by
    have hd : (m.digits : ℚ) < 10 ^ 6 := by exact_mod_cast m.high
    have hp : (1 : ℚ) ≤ 10 ^ m.places := one_le_pow₀ (by norm_num)
    rw [hxdef, div_lt_iff₀ (by positivity)]
    nlinarith
  have hd := binary64.abs_sub_round_le_of_normal (q := x)
    ((two_zpow_le (by norm_num [binary64])).trans (by linarith))
  have hd0 : 0 ≤ binary64.round x := binary64.round_nonneg (by linarith)
  obtain ⟨d, hdd⟩ : ∃ d, d = binary64.round x := ⟨_, rfl⟩
  simp only [← hdd] at hd hd0
  have hd' := abs_le.mp hd
  norm_num [binary64] at hd'
  have hf := binary32.abs_sub_round_le_of_normal (q := d)
    ((two_zpow_le (by norm_num [binary32])).trans (by linarith))
  have hf0 : 0 ≤ binary32.round d := binary32.round_nonneg hd0
  obtain ⟨f, hff⟩ : ∃ f, f = binary32.round d := ⟨_, rfl⟩
  simp only [← hff] at hf hf0
  have hf' := abs_le.mp hf
  norm_num [binary32] at hf'
  have hdouble : CFloat.ofExact binary64 m.neg m.mag = .finite m.neg d.toNNRat := by
    rw [CFloat.ofExact, ← hx, ← hdd, if_pos]
    exact lt_of_lt_of_le (by linarith) (le_two_zpow (by norm_num [binary64]))
  have hfloat : m.value = .finite m.neg f.toNNRat := by
    rw [value, hdouble, CFloat.toFloat, CFloat.ofExact, Rat.coe_toNNRat _ hd0, ← hff, if_pos]
    exact lt_of_lt_of_le (by linarith) (le_two_zpow (by norm_num [binary32]))
  refine ⟨f.toNNRat, hfloat, Rat.toNNRat_pos.mpr (by linarith), ?_⟩
  rw [Rat.coe_toNNRat _ hf0, ← hx, abs_le]
  constructor <;> linarith

/-- **Six digits survive.** The `float` that is stored for a numeral is printed as the numeral. -/
theorem Numeral.printG_value (m : Numeral) : printG m.value = m.text := by
  obtain ⟨f, hf, hpos, hnear⟩ := m.exists_value
  have hmag : (m.mag : ℚ) = (m.digits : ℤ) * 10 ^ ((5 - m.places : ℤ) - (5 : ℕ) : ℤ) := by
    rw [show (5 - m.places : ℤ) - (5 : ℕ) = -(m.places : ℤ) by push_cast; ring, zpow_neg,
      zpow_natCast, mag]
    push_cast
    rfl
  have hsci : scientific 5 (f : ℚ) = ((m.digits : ℤ), 5 - (m.places : ℤ)) := by
    have hlow : (10 : ℤ) ^ 5 ≤ m.digits := by exact_mod_cast m.low
    have hhigh : (m.digits : ℤ) < 10 ^ (5 + 1) := by exact_mod_cast m.high
    refine scientific_eq hlow hhigh ?_
    rw [← hmag]
    exact hnear
  have hplaces := m.places_le
  rw [hf, printG, hsci, text, if_neg hpos.ne']
  simp only
  rw [if_pos (by omega)]
  congr 2
  omega

/-- A `float` that its text gives back: zero, or the one nearest to a numeral. -/
def CFloat.IsShort (v : CFloat) : Prop :=
  (∃ neg, v = .finite neg 0) ∨ ∃ m : Numeral, v = m.value

/-- The text of a number that is not zero begins with a numeral, which may have an exponent behind
it. -/
theorem exists_numeral_of_printG (neg : Bool) {mag : ℚ≥0} (h : mag ≠ 0) :
    ∃ m : Numeral, m.neg = neg ∧ (printG (.finite neg mag) = m.text ∨
      ∃ e, printG (.finite neg mag) = m.text ++ exponentText e) := by
  have hpos : (0 : ℚ) < mag := by exact_mod_cast pos_iff_ne_zero.mpr h
  obtain ⟨hlow, hhigh⟩ := scientific_bounds (k := 5) hpos
  rw [printG, if_neg h]
  obtain ⟨⟨n, e⟩, hsci⟩ : ∃ r, scientific 5 (mag : ℚ) = r := ⟨_, rfl⟩
  rw [hsci] at hlow hhigh ⊢
  simp only at hlow hhigh ⊢
  have hlow' : 10 ^ 5 ≤ n.toNat := by omega
  have hhigh' : n.toNat < 10 ^ 6 := by omega
  split_ifs with he
  · exact ⟨⟨neg, n.toNat, (5 - e).toNat, hlow', hhigh', by omega⟩, rfl, .inl rfl⟩
  · refine ⟨⟨neg, n.toNat, 5, hlow', hhigh', by omega⟩, rfl, .inr ⟨e, ?_⟩⟩
    rw [Numeral.text, List.append_assoc]

end Visftp
