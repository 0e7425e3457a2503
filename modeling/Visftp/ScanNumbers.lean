import Visftp.Numerals

/-!
# Numbers in a text

`%u`, `%ld` and `atoi` read a number alike: white space, a sign and digits, of which only the digits
have to be there. A `UNum` is such a number, and `scanNumber_text` says that it is read up to the
end of its digits.

## Main results

* `scanNumber_text`, `scanUInt_text` — a number is read
* `exists_of_scanUInt` — what is read is a number
* `scanLong_eq_some_iff` — the same of `%ld`
-/

namespace Visftp

open CString

/-- A number as `%u` reads it. -/
structure UNum where
  blanks : Bytes
  sign : Bytes
  digits : Bytes
  isspace_blanks : ∀ b ∈ blanks, isspace b = true
  sign_mem : sign ∈ [[], [43], [45]]
  isdigit_digits : ∀ b ∈ digits, isdigit b = true
  digits_ne : digits ≠ []

namespace UNum

/-- The text of a number. -/
def text (u : UNum) : Bytes := u.blanks ++ u.sign ++ u.digits

/-- What `%u` makes of it: a 32-bit value, to which a minus sign is applied. -/
def value (u : UNum) : ℕ :=
  ((strtoul (decide (u.sign = [45])) u.digits).emod (2 ^ 32)).toNat

/-- Digits without a sign, below `2 ^ 32`, stand for the number they spell. -/
theorem value_of_lt {u : UNum} (hsign : u.sign ≠ [45]) (h : digitsValue u.digits < 2 ^ 32) :
    u.value = digitsValue u.digits := by
  have hfits : ¬2 ^ 64 ≤ digitsValue u.digits := by omega
  rw [value, strtoul, if_neg hfits, decide_eq_false hsign, if_neg Bool.false_ne_true]
  change ((digitsValue u.digits : Int) % 2 ^ 32).toNat = _
  omega

/-- The number a decimal numeral spells. -/
def ofNat (n : ℕ) : UNum where
  blanks := []
  sign := []
  digits := decimal n
  isspace_blanks := by simp
  sign_mem := by simp
  isdigit_digits := isdigit_of_mem_decimal n
  digits_ne := decimal_ne_nil n

@[simp] theorem text_ofNat (n : ℕ) : (ofNat n).text = decimal n := rfl

theorem value_ofNat {n : ℕ} (h : n < 2 ^ 32) : (ofNat n).value = n := by
  have hdigits : digitsValue (ofNat n).digits = n := digitsValue_decimal n
  rw [value_of_lt (by simp [ofNat]) (by rwa [hdigits]), hdigits]

end UNum

/-- A digit is neither white space nor a sign. -/
theorem not_sign_of_isdigit {b : Byte} (h : isdigit b = true) :
    isspace b = false ∧ b ≠ 43 ∧ b ≠ 45 := by
  simp only [isspace, isdigit, Bool.and_eq_true, decide_eq_true_eq, Bool.or_eq_false_iff,
    Bool.and_eq_false_iff, decide_eq_false_iff_not, beq_eq_false_iff_ne, UInt8.le_iff_toNat_le,
    ne_eq, ← UInt8.toNat_inj, UInt8.reduceToNat] at h ⊢
  omega

theorem skipSpace_append {b : Bytes} (h : ∀ c ∈ b, isspace c = true) (s : Bytes) :
    skipSpace (b ++ s) = skipSpace s := List.dropWhile_append_of_pos h

section Number

variable {s rest : Bytes}

/-- **`%u` reads a number** and stops behind its digits. -/
theorem scanNumber_text (u : UNum) (hrest : isdigit (byteAt rest 0) = false) :
    scanNumber (u.text ++ rest) = (decide (u.sign = [45]), u.digits, rest) := by
  obtain ⟨d, ds, hds⟩ := List.exists_cons_of_ne_nil u.digits_ne
  have hd := not_sign_of_isdigit (u.isdigit_digits d (by simp [hds]))
  obtain ⟨htake, hdrop⟩ := takeWhile_append_of_stop u.isdigit_digits (.inr hrest)
  have hskip : skipSpace (u.text ++ rest) = skipSpace (u.sign ++ (u.digits ++ rest)) := by
    rw [UNum.text, List.append_assoc, List.append_assoc, skipSpace_append u.isspace_blanks]
  have hsign := u.sign_mem
  simp only [List.mem_cons, List.not_mem_nil, or_false] at hsign
  unfold scanNumber
  dsimp only
  rw [hskip]
  rcases hsign with hsign | hsign | hsign
  · have hnumber : skipSpace ([] ++ (u.digits ++ rest)) = u.digits ++ rest := by
      apply skipSpace_of_not_isspace
      simpa [hds, byteAt] using hd.1
    have hbyte : byteAt (u.digits ++ rest) 0 = d := by simp [hds, byteAt]
    rw [hsign, hnumber, hbyte]
    simp [hd, htake, hdrop]
  · have hblank : isspace 43 = false := by decide
    have hnumber : skipSpace ([43] ++ (u.digits ++ rest)) = 43 :: (u.digits ++ rest) :=
      skipSpace_of_not_isspace hblank
    rw [hsign, hnumber]
    simp [byteAt, htake, hdrop]
  · have hblank : isspace 45 = false := by decide
    have hnumber : skipSpace ([45] ++ (u.digits ++ rest)) = 45 :: (u.digits ++ rest) :=
      skipSpace_of_not_isspace hblank
    rw [hsign, hnumber]
    simp [byteAt, htake, hdrop]

theorem scanUInt_text (u : UNum) (hrest : isdigit (byteAt rest 0) = false) :
    scanUInt (u.text ++ rest) = some (u.value, rest) := by
  rw [scanUInt, scanNumber_text u hrest]
  exact if_neg u.digits_ne

/-- Digits that are read belong to a number. -/
theorem exists_of_scanNumber (h : (scanNumber s).2.1 ≠ []) : ∃ (u : UNum) (rest : Bytes),
    s = u.text ++ rest ∧ isdigit (byteAt rest 0) = false ∧
      scanNumber s = (decide (u.sign = [45]), u.digits, rest) := by
  have hrest : ∀ p : Bytes, isdigit (byteAt (p.dropWhile isdigit) 0) = false := by
    intro p
    cases hp : p.dropWhile isdigit with
    | nil => exact isdigit_nul
    | cons b q =>
      have := List.head_dropWhile_not isdigit (l := p) (by simp [hp])
      simpa [hp, byteAt] using this
  -- the pieces `scanNumber` cuts the input into
  obtain ⟨sign, hsign, p, hp, hscan⟩ : ∃ sign : Bytes, sign ∈ [[], [43], [45]] ∧
      ∃ p, skipSpace s = sign ++ p ∧
        scanNumber s = (decide (sign = [45]), p.takeWhile isdigit, p.dropWhile isdigit) := by
    unfold scanNumber
    dsimp only
    cases hs : skipSpace s with
    | nil => exact ⟨[], by simp, [], rfl, rfl⟩
    | cons b q =>
      by_cases h43 : b = 43
      · exact ⟨[43], by simp, q, by simp [h43], by simp [h43, byteAt]⟩
      by_cases h45 : b = 45
      · exact ⟨[45], by simp, q, by simp [h45], by simp [h45, byteAt]⟩
      · exact ⟨[], by simp, b :: q, rfl, by simp [h43, h45, byteAt]⟩
  rw [hscan] at h
  refine ⟨⟨s.takeWhile isspace, sign, p.takeWhile isdigit, fun b hb => List.mem_takeWhile_imp hb,
    hsign, fun b hb => List.mem_takeWhile_imp hb, h⟩, p.dropWhile isdigit, ?_, hrest p, hscan⟩
  rw [UNum.text, List.append_assoc, List.takeWhile_append_dropWhile, List.append_assoc,
    ← hp, skipSpace, List.takeWhile_append_dropWhile]

/-- What `%u` reads is a number. -/
theorem exists_of_scanUInt {v : ℕ} (h : scanUInt s = some (v, rest)) :
    ∃ u : UNum, s = u.text ++ rest ∧ isdigit (byteAt rest 0) = false ∧ v = u.value := by
  have hne : (scanNumber s).2.1 ≠ [] := by
    intro hnil
    simp [scanUInt, hnil] at h
  obtain ⟨u, rest', rfl, hrest, -⟩ := exists_of_scanNumber hne
  rw [scanUInt_text u hrest] at h
  obtain ⟨rfl, rfl⟩ := Prod.mk.inj (Option.some.inj h)
  exact ⟨u, rfl, hrest, rfl⟩

/-! ### `%ld` -/

/-- What `%ld` makes of a number, which it cuts off at the ends of `long`. -/
def UNum.long (u : UNum) : Int :=
  max (-2 ^ 63) (min (2 ^ 63 - 1) (if u.sign = [45] then -(digitsValue u.digits : Int)
    else digitsValue u.digits))

theorem scanLong_text (u : UNum) (hrest : isdigit (byteAt rest 0) = false) :
    scanLong (u.text ++ rest) = some u.long := by
  rw [scanLong, strtol, scanNumber_text u hrest]
  dsimp only
  rw [if_neg u.digits_ne]
  simp [UNum.long]

/-- **`%ld` reads a number** wherever there is one, and nothing else. -/
theorem scanLong_eq_some_iff {n : Int} : scanLong s = some n ↔
    ∃ (u : UNum) (rest : Bytes), s = u.text ++ rest ∧ isdigit (byteAt rest 0) = false ∧
      n = u.long := by
  constructor
  · intro h
    have hne : (scanNumber s).2.1 ≠ [] := by
      intro hnil
      simp [scanLong, hnil] at h
    obtain ⟨u, rest', rfl, hrest, -⟩ := exists_of_scanNumber hne
    rw [scanLong_text u hrest] at h
    exact ⟨u, rest', rfl, hrest, (Option.some.inj h).symm⟩
  · rintro ⟨u, rest', rfl, hrest, rfl⟩
    exact scanLong_text u hrest

end Number

end Visftp
