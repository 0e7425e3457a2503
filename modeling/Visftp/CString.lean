import Mathlib.Data.List.TakeWhile
import Mathlib.Data.Nat.Digits.Defs

/-!
# Bytes and C strings

The client handles everything the server sends as `char *`. A C string is modelled by the bytes
before its terminating NUL, so it is a `Bytes` without a zero; the memory behind a pointer is a
`Bytes` that may hold zeros, and `cstr` is the string that starts there.

The `ctype.h` classes are those of the C locale: no byte above 127 is a blank or a digit. Reading
`str[i]` at or behind the terminator is `byteAt`, which gives the NUL.

## Main definitions

* `ascii` — a string literal of the source as bytes
* `cstr`, `byteAt`, `strchr` — the string at a pointer, one character, a suffix by character
* `atoi`, `strtoul`, `scanUInt`, `scanLong` — the number readers of `stdlib.h` and `scanf`
* `decimal` — `%d` of a natural number
-/

namespace Visftp

/-- One `char`, as an unsigned byte. -/
abbrev Byte := UInt8

/-- A run of bytes: a buffer, or a C string without its terminator. -/
abbrev Bytes := List Byte

namespace CString

/-- A string literal of the source. -/
def ascii (s : String) : Bytes := s.toList.map fun c => UInt8.ofNat c.toNat

/-- `'\0'`. -/
abbrev nul : Byte := 0
/-- `'\n'`. -/
abbrev lf : Byte := 10
/-- `'\r'`. -/
abbrev cr : Byte := 13

/-- `isspace` in the C locale: blank, tab, line feed, vertical tab, form feed, carriage return. -/
def isspace (b : Byte) : Bool := b == 32 || (decide (9 ≤ b) && decide (b ≤ 13))

/-- `isdigit` in the C locale. -/
def isdigit (b : Byte) : Bool := decide (48 ≤ b) && decide (b ≤ 57)

/-- The C string that starts at a pointer into the memory `m`. -/
def cstr (m : Bytes) : Bytes := m.takeWhile (· ≠ nul)

/-- `str[i]`, the terminator included. -/
def byteAt (s : Bytes) (i : ℕ) : Byte := s.getD i nul

/-- `strchr`: the suffix that starts at the first `b`. -/
def strchr (s : Bytes) (b : Byte) : Option Bytes :=
  if b ∈ s then some (s.dropWhile (· ≠ b)) else none

/-- `while(*p && isspace(*p)) p++`. -/
def skipSpace (s : Bytes) : Bytes := s.dropWhile isspace

@[simp] theorem isspace_nul : isspace nul = false := by decide
@[simp] theorem isdigit_nul : isdigit nul = false := by decide

theorem nul_notMem_cstr (m : Bytes) : nul ∉ cstr m := fun h => by
  simpa using List.mem_takeWhile_imp h

theorem cstr_eq_self {s : Bytes} (h : nul ∉ s) : cstr s = s :=
  List.takeWhile_eq_self_iff.mpr fun b hb => by
    simpa using ne_of_mem_of_not_mem hb h

/-- A string ends at its first zero, so that what is behind a zero does not matter. -/
theorem cstr_append_cons (s t : Bytes) : cstr (s ++ nul :: t) = cstr s := by
  induction s with
  | nil => rfl
  | cons b s ih =>
    simp only [cstr, List.cons_append, List.takeWhile_cons] at ih ⊢
    rw [ih]

theorem cstr_append_nul {s : Bytes} (h : nul ∉ s) (t : Bytes) : cstr (s ++ nul :: t) = s := by
  rw [cstr_append_cons, cstr_eq_self h]

/-- A character that is not blank is a character where `skipSpace` stops. -/
theorem skipSpace_of_not_isspace {s : Bytes} (h : isspace (byteAt s 0) = false) :
    skipSpace s = s := by
  cases s with
  | nil => rfl
  | cons b s =>
    have hb : isspace b = false := by simpa [byteAt] using h
    simp [skipSpace, hb]

theorem skipSpace_subset {s : Bytes} : skipSpace s ⊆ s :=
  (List.dropWhile_suffix isspace).subset

/-- A run of characters ends where another one follows, or none. -/
theorem takeWhile_append_of_stop {p : Byte → Bool} {t s : Bytes} (ht : ∀ b ∈ t, p b = true)
    (hs : s = [] ∨ p (byteAt s 0) = false) :
    (t ++ s).takeWhile p = t ∧ (t ++ s).dropWhile p = s := by
  rw [List.takeWhile_append_of_pos ht, List.dropWhile_append_of_pos ht]
  cases s with
  | nil => simp
  | cons c s =>
    have hc : p c = false := by simpa [byteAt] using hs
    simp [hc]

/-- A run of characters ends at a character of another kind. -/
theorem stop_of_dropWhile {p : Byte → Bool} {s t : Bytes} {b : Byte}
    (h : s.dropWhile p = b :: t) : p b = false := by
  simpa [h] using List.head?_dropWhile_not p s

/-! ### Reading numbers -/

/-- The value of a run of decimal digits. -/
def digitsValue (ds : Bytes) : ℕ := ds.foldl (fun n d => 10 * n + (d.toNat - 48)) 0

/-- An optional sign and the digits behind it, as `strtol` and `%d` read them: the sign, the
digits, and what follows them. -/
def scanNumber (s : Bytes) : Bool × Bytes × Bytes :=
  let s := skipSpace s
  let neg := byteAt s 0 = 45
  let s := if byteAt s 0 = 45 ∨ byteAt s 0 = 43 then s.tail else s
  (neg, s.takeWhile isdigit, s.dropWhile isdigit)

/-- `strtol(s, 0, 10)` for a 64-bit `long`, saturating at its ends. -/
def strtol (s : Bytes) : Int :=
  let (neg, ds, _) := scanNumber s
  let v : Int := if neg then -(digitsValue ds : Int) else digitsValue ds
  max (-2 ^ 63) (min (2 ^ 63 - 1) v)

/-- `atoi(s)`, which is `(int)strtol(s, 0, 10)`. -/
def atoi (s : Bytes) : Int := (strtol s).bmod (2 ^ 32)

/-- `strtoul` of a sign and digits, before the conversion to `unsigned int`: a minus sign negates,
and a number beyond 64 bits is the largest one, with either sign. -/
def strtoul (neg : Bool) (ds : Bytes) : Int :=
  if 2 ^ 64 ≤ digitsValue ds then 2 ^ 64 - 1
  else if neg then -(digitsValue ds : Int) else digitsValue ds

/-- One `%u` of `sscanf`: the 32-bit value and the rest of the input, or `none` when there is no
digit to read. -/
def scanUInt (s : Bytes) : Option (ℕ × Bytes) :=
  let (neg, ds, rest) := scanNumber s
  if ds = [] then none else some (((strtoul neg ds).emod (2 ^ 32)).toNat, rest)

/-- One `%ld` of `sscanf`. -/
def scanLong (s : Bytes) : Option Int :=
  let (_, ds, _) := scanNumber s
  if ds = [] then none else some (strtol s)

/-- `%d` of a number that is not negative. -/
def decimal (n : ℕ) : Bytes := (Nat.toDigits 10 n).map fun c => UInt8.ofNat c.toNat

/-! ### Comparing strings -/

/-- The sign of `strcmp(a, b)`: characters compare as `unsigned char`. -/
def strcmp : Bytes → Bytes → Int
  | [], [] => 0
  | [], _ :: _ => -1
  | _ :: _, [] => 1
  | a :: s, b :: t => if a < b then -1 else if b < a then 1 else strcmp s t

end CString

end Visftp
