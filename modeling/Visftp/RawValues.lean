import Visftp.Lib.Alloc
import Visftp.TreeStore

/-!
# Values and their storage

The functions of `treestor.c` on a `struct ts_value` with everything that the pointers in it are
about: which of them are null, what storage they own, which storage was released, and what happens
when an allocation fails. `TreeStore` has the same functions for the runs in which none does.

A `float` may be a NaN here. An array handed to a function comes with its `count`, of which the
array has that many elements at least; the function reads no more of it.

## Main definitions

* `RawValue`, `RawFloat`
* `tsDestroyValue`, `tsCopyValue`
* `tsSetValueStr`, `tsSetValueiArr`, `tsSetValuefArr`, `tsSetValueArr` — the setters
* `RawValue.Sound` — the pointers and the sizes of a value fit together
* `RawValue.allocs`, `RawValue.dup` — what a copy asks for, and what it is

## Main results

* `gives_tsCopyValue` — a copy with its allocations granted
* `tsCopyValue_refused` — a copy that is refused one of them
-/

namespace Visftp.Raw

open Alloc CString

/-- A `float` or a `double`. -/
inductive RawFloat
  | nan (neg : Bool)
  | num (x : CFloat)
  deriving DecidableEq

namespace RawFloat

/-- The conversion of an `int`. -/
def ofInt (n : ℤ) : RawFloat := num (.ofExact binary32 (n < 0) n.natAbs)

/-- The conversion of a `double` to `float`. -/
def toFloat : RawFloat → RawFloat
  | nan neg => nan neg
  | num x => num x.toFloat

/-- The conversion of a `float` to `int`. -/
def toInt : RawFloat → ℤ
  | nan _ => -2 ^ 31
  | num x => x.toInt

/-- `%g` -/
def text : RawFloat → Bytes
  | nan neg => signText neg ++ ascii "nan"
  | num x => printG x

end RawFloat

/-- `%d` -/
def intText (n : ℤ) : Bytes := signText (n < 0) ++ decimal n.natAbs

/-- `struct ts_value` -/
structure RawValue where
  type : TsValueType
  str : Ptr Bytes
  inum : ℤ
  fnum : RawFloat
  vec : Ptr (List RawFloat)
  vecSize : ℕ
  array : Ptr (List RawValue)
  arraySize : ℕ

/-- `ts_init_value` -/
def tsInitValue : RawValue where
  type := .string
  str := .null
  inum := 0
  fnum := .num (.finite false 0)
  vec := .null
  vecSize := 0
  array := .null
  arraySize := 0

/-! ### Releasing -/

mutual

/-- `ts_destroy_value` -/
def tsDestroyValue : RawValue → Option RawValue
  | ⟨type, str, inum, fnum, vec, vecSize, array, arraySize⟩ => do
    let str ← str.free
    let vec ← vec.free
    tsDestroyArray array arraySize
    let array ← array.free
    return ⟨type, str, inum, fnum, vec, vecSize, array, arraySize⟩

/-- The loop of `ts_destroy_value` over an array of the size that is given. -/
def tsDestroyArray : Ptr (List RawValue) → ℕ → Option Unit
  | .own elems, n => tsDestroyElems elems n
  | _, n => if n = 0 then some () else none

/-- The loop over the elements. -/
def tsDestroyElems : List RawValue → ℕ → Option Unit
  | _, 0 => some ()
  | [], _ + 1 => none
  | e :: es, n + 1 => do
    let _ ← tsDestroyValue e
    tsDestroyElems es n

end

/-! ### Copies -/

/-- The copy of the string; `none` is the failure. -/
def dupStr : Ptr Bytes → Heap (Option (Ptr Bytes))
  | .null => pure (some .null)
  | .own str => do
    if ← malloc then pure (some (.own str)) else pure none
  | .freed => undefined

/-- The copy of the vector; `none` is the failure. -/
def dupVec : Ptr (List RawFloat) → ℕ → Heap (Option (Ptr (List RawFloat)))
  | .null, _ => pure (some .null)
  | .own vec, n =>
    if n = 0 then pure (some .null)
    else do
      if ← malloc then
        if vec.length < n then undefined else pure (some (.own (vec.take n)))
      else pure none
  | .freed, _ => undefined

/-- What `ts_copy_value` does at `fail` with the array. -/
def copyFailArray : Ptr (List RawValue) → ℕ → Option (Ptr (List RawValue))
  | .null, _ => some .null
  | array, n => do
    tsDestroyArray array n
    array.free

/-- What `ts_copy_value` does at `fail`. -/
def copyFail (dest : RawValue) : Heap (ℤ × RawValue) := do
  let str ← check dest.str.free
  let vec ← check dest.vec.free
  let array ← check (copyFailArray dest.array dest.arraySize)
  pure (-1, { dest with str := str, vec := vec, array := array })

mutual

/-- `ts_copy_value`, to a place other than the source. -/
def tsCopyValue : RawValue → Heap (ℤ × RawValue)
  | ⟨type, str, inum, fnum, vec, vecSize, array, arraySize⟩ => do
    match ← dupStr str with
    | none => copyFail ⟨type, .null, inum, fnum, .null, vecSize, .null, arraySize⟩
    | some str =>
      match ← dupVec vec vecSize with
      | none => copyFail ⟨type, str, inum, fnum, .null, vecSize, .null, arraySize⟩
      | some vec =>
        let (res, array) ← tsCopyArray array arraySize
        let dest := ⟨type, str, inum, fnum, vec, vecSize, array, arraySize⟩
        if res = -1 then copyFail dest else pure (0, dest)

/-- The copy of the array: whether it failed, and the array. -/
def tsCopyArray : Ptr (List RawValue) → ℕ → Heap (ℤ × Ptr (List RawValue))
  | .null, _ => pure (0, .null)
  | .own elems, n =>
    if n = 0 then pure (0, .null)
    else do
      if ← malloc then
        let (res, elems) ← tsCopyElems elems n
        pure (res, .own elems)
      else pure (-1, .null)
  | .freed, _ => undefined

/-- The loop over the elements. What comes after an element that failed is as `calloc` left it. -/
def tsCopyElems : List RawValue → ℕ → Heap (ℤ × List RawValue)
  | _, 0 => pure (0, [])
  | [], _ + 1 => undefined
  | e :: es, n + 1 => do
    let (res, elem) ← tsCopyValue e
    if res = -1 then pure (-1, elem :: List.replicate n tsInitValue)
    else
      let (res, elems) ← tsCopyElems es n
      pure (res, elem :: elems)

end

/-! ### Setters -/

/-- The `count` elements of an array that a function was given. -/
def readArgs {α : Type} (count : ℤ) (arr : List α) : Heap (List α) :=
  if arr.length < count then undefined else pure (arr.take count.toNat)

/-- What `ts_set_value_str` does with the old value. -/
def clearStr (tsv : RawValue) : Option RawValue :=
  match tsv.str with
  | .null => some tsv
  | _ => do
    let _ ← tsDestroyValue tsv
    pure tsInitValue

/-- `ts_set_value_str` -/
def tsSetValueStr (tsv : RawValue) (str : Bytes) : Heap (ℤ × RawValue) := do
  let tsv ← check (clearStr tsv)
  if ← malloc then pure (0, { tsv with type := .string, str := .own str })
  else pure (-1, { tsv with type := .string, str := .null })

/-- A kind of number: how it is written, and what it is as an `int` and as a `float`. -/
structure NumKind (α : Type) where
  text : α → Bytes
  toInt : α → ℤ
  toFloat : α → RawFloat

/-- `int` -/
def intKind : NumKind ℤ := ⟨intText, id, RawFloat.ofInt⟩

/-- `float` -/
def floatKind : NumKind RawFloat := ⟨RawFloat.text, RawFloat.toInt, id⟩

/-- A setter with one number. -/
def setNumber {α : Type} (K : NumKind α) (tsv : RawValue) (x : α) : Heap (ℤ × RawValue) := do
  if ← malloc then
    pure (0, { tsv with
      str := .own (K.text x), type := .number, fnum := K.toFloat x, inum := K.toInt x })
  else pure (-1, { tsv with str := .null })

/-- `ts_set_valuef`, which is `ts_set_valuef_arr` with one element. -/
def tsSetValuef (tsv : RawValue) (fnum : RawFloat) : Heap (ℤ × RawValue) :=
  setNumber floatKind tsv fnum

/-- `ts_set_valuei`, which is `ts_set_valuei_arr` with one element. -/
def tsSetValuei (tsv : RawValue) (inum : ℤ) : Heap (ℤ × RawValue) := setNumber intKind tsv inum

/-- The elements of a vector, each of them made with `ts_set_valuef`, whose result is not looked
at. -/
def setElems : List RawFloat → Heap (List RawValue)
  | [] => pure []
  | x :: xs => do
    let (_, elem) ← tsSetValuef tsInitValue x
    let elems ← setElems xs
    pure (elem :: elems)

/-- A setter with several numbers. When there is no storage for the array, `vec` is released, and
the elements are written through the null pointer. -/
def setVector (tsv : RawValue) (vec : List RawFloat) : Heap (ℤ × RawValue) := do
  if ← malloc then
    if ← malloc then
      let elems ← setElems vec
      pure (0, { tsv with
        type := .vector
        vec := .own vec
        vecSize := vec.length
        array := .own elems
        arraySize := vec.length })
    else undefined
  else pure (-1, { tsv with vec := .null })

/-- A setter with an array of numbers. -/
def setNumbers {α : Type} (K : NumKind α) (tsv : RawValue) (count : ℤ) (arr : List α) :
    Heap (ℤ × RawValue) :=
  if count < 1 then pure (-1, tsv)
  else do
    match ← readArgs count arr with
    | [x] => setNumber K tsv x
    | arr => setVector tsv (arr.map K.toFloat)

/-- `ts_set_valuei_arr` -/
def tsSetValueiArr (tsv : RawValue) (count : ℤ) (arr : List ℤ) : Heap (ℤ × RawValue) :=
  setNumbers intKind tsv count arr

/-- `ts_set_valuef_arr` -/
def tsSetValuefArr (tsv : RawValue) (count : ℤ) (arr : List RawFloat) : Heap (ℤ × RawValue) :=
  setNumbers floatKind tsv count arr

/-- The loop of `ts_set_value_arr` and of `ts_set_valuev_va`, with the elements that are copied
already. They are destroyed when the next one fails; `none` is the failure. -/
def copyArgs : List RawValue → List RawValue → Heap (Option (List RawValue))
  | done, [] => pure (some done)
  | done, e :: es => do
    let (res, elem) ← tsCopyValue e
    if res = -1 then
      let _ ← check (done.reverse.mapM tsDestroyValue)
      pure none
    else copyArgs (done ++ [elem]) es

/-- The end of `ts_set_value_arr`, where `tsv` has its array. -/
def setKind (tsv : RawValue) (allnum : Bool) (elems : List RawValue) : Heap (ℤ × RawValue) :=
  if allnum then do
    if ← malloc then
      pure (0, { tsv with type := .vector, vec := .own (elems.map RawValue.fnum) })
    else
      let tsv ← check (tsDestroyValue { tsv with vec := .null })
      pure (-1, tsv)
  else pure (0, { tsv with type := .array })

/-- `ts_set_value_arr` -/
def tsSetValueArr (tsv : RawValue) (count : ℤ) (arr : List RawValue) : Heap (ℤ × RawValue) :=
  if count ≤ 1 then pure (-1, tsv)
  else do
    let arr ← readArgs count arr
    if ← malloc then
      match ← copyArgs [] arr with
      | none => pure (-1, { tsv with array := .null, arraySize := count.toNat })
      | some elems =>
        setKind { tsv with array := .own elems, arraySize := count.toNat }
          (arr.all (·.type = .number)) elems
    else pure (-1, { tsv with array := .null })

/-! ### What a copy is -/

/-- How many allocations the copy of a string takes. -/
def strAllocs : Ptr Bytes → ℕ
  | .own _ => 1
  | _ => 0

/-- How many allocations the copy of a vector takes. -/
def vecAllocs : Ptr (List RawFloat) → ℕ → ℕ
  | .own _, n => if n = 0 then 0 else 1
  | _, _ => 0

/-- What a vector is copied to. -/
def keepVec : Ptr (List RawFloat) → ℕ → Ptr (List RawFloat)
  | .own vec, n => if n = 0 then .null else .own (vec.take n)
  | vec, _ => vec

mutual

/-- How many allocations the copy of a value takes. -/
def RawValue.allocs : RawValue → ℕ
  | ⟨_, str, _, _, vec, vecSize, array, arraySize⟩ =>
    strAllocs str + (vecAllocs vec vecSize + arrayAllocs array arraySize)

/-- How many allocations the copy of an array takes. -/
def arrayAllocs : Ptr (List RawValue) → ℕ → ℕ
  | .own elems, n => if n = 0 then 0 else 1 + elemsAllocs elems n
  | _, _ => 0

/-- How many allocations the copies of the elements take. -/
def elemsAllocs : List RawValue → ℕ → ℕ
  | e :: es, n + 1 => e.allocs + elemsAllocs es n
  | _, _ => 0

end

mutual

/-- What a value is copied to. -/
def RawValue.dup : RawValue → RawValue
  | ⟨type, str, inum, fnum, vec, vecSize, array, arraySize⟩ =>
    ⟨type, str, inum, fnum, keepVec vec vecSize, vecSize, keepArray array arraySize, arraySize⟩

/-- What an array is copied to. -/
def keepArray : Ptr (List RawValue) → ℕ → Ptr (List RawValue)
  | .own elems, n => if n = 0 then .null else .own (dups elems n)
  | array, _ => array

/-- What the elements are copied to. -/
def dups : List RawValue → ℕ → List RawValue
  | e :: es, n + 1 => e.dup :: dups es n
  | _, _ => []

end

/-- The fields of a value fit together: nothing in it was released, and the sizes are those of the
vector and the array. -/
structure RawValue.Fits (v : RawValue) : Prop where
  str_ne : v.str ≠ .freed
  vec_ne : v.vec ≠ .freed
  vecSize_le : ∀ vec, v.vec = .own vec → v.vecSize ≤ vec.length
  array_ne : v.array ≠ .freed
  size_null : v.array = .null → v.arraySize = 0
  size_own : ∀ elems, v.array = .own elems → v.arraySize = elems.length

/-- The fields fit together in a value and in all its elements. -/
inductive RawValue.Sound : RawValue → Prop
  | intro {v : RawValue} (fits : v.Fits)
      (elems : ∀ elems, v.array = .own elems → ∀ e ∈ elems, Sound e) : Sound v

theorem tsCopyValue_eq (v : RawValue) : tsCopyValue v = (do
    match ← dupStr v.str with
    | none => copyFail { v with str := .null, vec := .null, array := .null }
    | some str =>
      match ← dupVec v.vec v.vecSize with
      | none => copyFail { v with str := str, vec := .null, array := .null }
      | some vec =>
        let (res, array) ← tsCopyArray v.array v.arraySize
        if res = -1 then copyFail { v with str := str, vec := vec, array := array }
        else pure (0, { v with str := str, vec := vec, array := array })) := by
  obtain ⟨type, str, inum, fnum, vec, vecSize, array, arraySize⟩ := v
  rw [tsCopyValue]

theorem allocs_eq (v : RawValue) :
    v.allocs = strAllocs v.str + (vecAllocs v.vec v.vecSize + arrayAllocs v.array v.arraySize) := by
  obtain ⟨type, str, inum, fnum, vec, vecSize, array, arraySize⟩ := v
  rw [RawValue.allocs]

theorem dup_eq (v : RawValue) : v.dup = { v with
    vec := keepVec v.vec v.vecSize, array := keepArray v.array v.arraySize } := by
  obtain ⟨type, str, inum, fnum, vec, vecSize, array, arraySize⟩ := v
  rw [RawValue.dup]

theorem dups_eq_map (elems : List RawValue) :
    dups elems elems.length = elems.map RawValue.dup := by
  induction elems with
  | nil => rfl
  | cons e es ih => rw [List.length_cons, dups, ih, List.map_cons]

/-! ### Granted copies -/

theorem gives_dupStr {str : Ptr Bytes} (h : str ≠ .freed) :
    Gives (dupStr str) (strAllocs str) (some str) := by
  cases str with
  | null => exact .pure _
  | own str => exact Gives.malloc.bind_pure rfl
  | freed => exact absurd rfl h

theorem gives_dupVec {vec : Ptr (List RawFloat)} {n : ℕ} (h : vec ≠ .freed)
    (hn : ∀ l, vec = .own l → n ≤ l.length) :
    Gives (dupVec vec n) (vecAllocs vec n) (some (keepVec vec n)) := by
  cases vec with
  | null => exact .pure _
  | own vec =>
    rw [dupVec, vecAllocs, keepVec]
    by_cases h0 : n = 0
    · simp only [if_pos h0]
      exact .pure _
    · simp only [if_neg h0]
      refine Gives.malloc.bind_pure ?_
      rw [if_pos rfl, if_neg (not_lt.mpr (hn vec rfl))]
  | freed => exact absurd rfl h

theorem gives_tsCopyElems {elems : List RawValue}
    (h : ∀ e ∈ elems, Gives (tsCopyValue e) e.allocs (0, e.dup)) :
    Gives (tsCopyElems elems elems.length) (elemsAllocs elems elems.length)
      (0, dups elems elems.length) := by
  induction elems with
  | nil => exact .pure _
  | cons e es ih =>
    obtain ⟨he, hes⟩ := List.forall_mem_cons.mp h
    rw [List.length_cons, tsCopyElems, elemsAllocs, dups]
    exact he.bind ((ih hes).bind_pure rfl)

/-- **A copy whose allocations are granted** is what `dup` says. -/
theorem gives_tsCopyValue {v : RawValue} (h : v.Sound) :
    Gives (tsCopyValue v) v.allocs (0, v.dup) := by
  induction h with
  | @intro v fits _ ih =>
    have harray : Gives (tsCopyArray v.array v.arraySize) (arrayAllocs v.array v.arraySize)
        (0, keepArray v.array v.arraySize) := by
      rcases harr : v.array with _ | elems | _
      · exact .pure _
      · rw [fits.size_own elems harr, tsCopyArray, arrayAllocs, keepArray]
        split_ifs with h0
        · exact .pure _
        · exact Gives.malloc.bind ((gives_tsCopyElems (ih elems harr)).bind_pure rfl)
      · exact absurd harr fits.array_ne
    rw [tsCopyValue_eq, allocs_eq, dup_eq]
    exact (gives_dupStr fits.str_ne).bind
      ((gives_dupVec fits.vec_ne fits.vecSize_le).bind (harray.bind_pure rfl))

/-! ### Refused copies -/

theorem released_of_copyFailArray {array array' : Ptr (List RawValue)} {n : ℕ}
    (h : copyFailArray array n = some array') : array' = array.released := by
  cases array with
  | null => exact (Option.some.inj h).symm
  | own elems =>
    obtain ⟨-, -, h⟩ := Option.bind_eq_some_iff.mp h
    exact Ptr.released_of_free h
  | freed =>
    obtain ⟨-, -, h⟩ := Option.bind_eq_some_iff.mp h
    exact Ptr.released_of_free h

/-- A copy that failed has released what it had. -/
theorem of_copyFail {dest : RawValue} {o : Oracle} {r : (ℤ × RawValue) × Oracle}
    (h : copyFail dest o = some r) : r.1.1 = -1 ∧ r.1.2 = { dest with
      str := dest.str.released, vec := dest.vec.released, array := dest.array.released } := by
  obtain ⟨str, o₁, hstr, h⟩ := bind_eq_some_iff.mp h
  obtain ⟨vec, o₂, hvec, h⟩ := bind_eq_some_iff.mp h
  obtain ⟨array, o₃, harray, h⟩ := bind_eq_some_iff.mp h
  obtain rfl : str = _ := Ptr.released_of_free (check_eq_some_iff.mp hstr).1
  obtain rfl : vec = _ := Ptr.released_of_free (check_eq_some_iff.mp hvec).1
  obtain rfl : array = _ := released_of_copyFailArray (check_eq_some_iff.mp harray).1
  obtain rfl := Option.some.inj h
  exact ⟨rfl, rfl⟩

theorem copyFail_null (dest : RawValue) (o : Oracle) :
    copyFail { dest with str := .null, vec := .null, array := .null } o =
      some ((-1, { dest with str := .null, vec := .null, array := .null }), o) := rfl

/-- A pointer of the value refers to storage that was released. -/
def RawValue.Dangles (v : RawValue) : Prop :=
  v.str = .freed ∨ v.vec = .freed ∨ v.array = .freed

/-- A copy that failed after its first allocation leaves storage that it released. -/
structure Refused (o : Oracle) (r : (ℤ × RawValue) × Oracle) : Prop where
  res_eq : r.1.1 = -1
  dangles : o 0 = true → r.1.2.Dangles

/-- A copy fails, and unless that was its first allocation there is something to release. -/
theorem Refused.of_copyFail {dest : RawValue} {o o' : Oracle} {r : (ℤ × RawValue) × Oracle}
    (hlater : o 0 = true → dest.str ≠ .null ∨ dest.vec ≠ .null ∨ dest.array ≠ .null)
    (h : copyFail dest o' = some r) : Refused o r := by
  obtain ⟨hres, hdest⟩ := Raw.of_copyFail h
  refine ⟨hres, fun h0 => ?_⟩
  rw [hdest]
  exact (hlater h0).imp Ptr.released_eq_freed (Or.imp Ptr.released_eq_freed Ptr.released_eq_freed)

theorem strAllocs_eq_zero_iff {str : Ptr Bytes} (h : str ≠ .freed) :
    strAllocs str = 0 ↔ str = .null := by
  cases str with
  | null => simp [strAllocs]
  | own str => simp [strAllocs]
  | freed => exact absurd rfl h

theorem vecAllocs_eq_zero_iff {vec : Ptr (List RawFloat)} {n : ℕ} (h : vec ≠ .freed) :
    vecAllocs vec n = 0 ↔ keepVec vec n = .null := by
  cases vec with
  | null => simp [vecAllocs, keepVec]
  | own vec =>
    rw [vecAllocs, keepVec]
    split_ifs <;> simp
  | freed => exact absurd rfl h

theorem dupStr_refused {str : Ptr Bytes} {o : Oracle} (hgrants : ¬ o.Grants (strAllocs str)) :
    o 0 = false ∧ dupStr str o = some (none, o.after 1) := by
  cases str with
  | null => exact absurd o.grants_zero hgrants
  | own str =>
    have h0 : o 0 = false := Bool.eq_false_iff.mpr fun h => hgrants (Oracle.grants_one.mpr h)
    exact ⟨h0, by rw [dupStr, bind_of_eq (malloc_apply o), h0]; exact rfl⟩
  | freed => exact absurd o.grants_zero hgrants

theorem dupVec_refused {vec : Ptr (List RawFloat)} {n : ℕ} {o : Oracle}
    (hgrants : ¬ o.Grants (vecAllocs vec n)) :
    o 0 = false ∧ dupVec vec n o = some (none, o.after 1) := by
  cases vec with
  | null => exact absurd o.grants_zero hgrants
  | own vec =>
    rw [vecAllocs] at hgrants
    split_ifs at hgrants with hn
    · exact absurd o.grants_zero hgrants
    · have h0 : o 0 = false := Bool.eq_false_iff.mpr fun h => hgrants (Oracle.grants_one.mpr h)
      exact ⟨h0, by rw [dupVec, if_neg hn, bind_of_eq (malloc_apply o), h0]; exact rfl⟩
  | freed => exact absurd o.grants_zero hgrants

theorem tsCopyElems_refused {elems : List RawValue} {o : Oracle} {r : (ℤ × List RawValue) × Oracle}
    (hsound : ∀ e ∈ elems, e.Sound)
    (h : ∀ e ∈ elems, ∀ o r, ¬ o.Grants e.allocs → tsCopyValue e o = some r → Refused o r)
    (hgrants : ¬ o.Grants (elemsAllocs elems elems.length))
    (hr : tsCopyElems elems elems.length o = some r) : r.1.1 = -1 := by
  induction elems generalizing o r with
  | nil => exact absurd o.grants_zero hgrants
  | cons e es ih =>
    obtain ⟨he, hes⟩ := List.forall_mem_cons.mp h
    obtain ⟨hse, hses⟩ := List.forall_mem_cons.mp hsound
    rw [List.length_cons, tsCopyElems] at hr
    obtain ⟨⟨res, elem⟩, o', hcopy, hr⟩ := bind_eq_some_iff.mp hr
    rw [List.length_cons, elemsAllocs, Oracle.grants_add] at hgrants
    by_cases hg : o.Grants e.allocs
    · rw [gives_tsCopyValue hse o hg] at hcopy
      obtain ⟨⟨rfl, rfl⟩, rfl⟩ : (0 = res ∧ e.dup = elem) ∧ o.after e.allocs = o' := by
        simpa using hcopy
      obtain ⟨⟨res, elems⟩, o'', hmore, hr⟩ := bind_eq_some_iff.mp hr
      have hres := ih hses hes (fun h => hgrants ⟨hg, h⟩) hmore
      obtain rfl := Option.some.inj hr
      exact hres
    · obtain rfl : res = -1 := (he o _ hg hcopy).res_eq
      obtain rfl := Option.some.inj hr
      rfl

theorem tsCopyArray_refused {array : Ptr (List RawValue)} {n : ℕ} {o : Oracle}
    {r : (ℤ × Ptr (List RawValue)) × Oracle}
    (hsize : ∀ elems, array = .own elems → n = elems.length)
    (hsound : ∀ elems, array = .own elems → ∀ e ∈ elems, e.Sound)
    (h : ∀ elems, array = .own elems → ∀ e ∈ elems, ∀ o r, ¬ o.Grants e.allocs →
      tsCopyValue e o = some r → Refused o r)
    (hgrants : ¬ o.Grants (arrayAllocs array n)) (hr : tsCopyArray array n o = some r) :
    r.1.1 = -1 ∧ (r.1.2 = .null ↔ o 0 = false) := by
  cases array with
  | null => exact absurd o.grants_zero hgrants
  | own elems =>
    obtain rfl := hsize elems rfl
    rw [arrayAllocs] at hgrants
    rw [tsCopyArray] at hr
    split_ifs at hgrants hr with h0
    · exact absurd o.grants_zero hgrants
    · rw [bind_of_eq (malloc_apply o)] at hr
      rw [Oracle.grants_add, Oracle.grants_one] at hgrants
      rcases Bool.eq_false_or_eq_true (o 0) with ho | ho
      · rw [ho, if_pos rfl] at hr
        obtain ⟨⟨res, copies⟩, o', hcopies, hr⟩ := bind_eq_some_iff.mp hr
        have hres := tsCopyElems_refused (hsound elems rfl) (h elems rfl)
          (fun hg => hgrants ⟨ho, hg⟩) hcopies
        obtain rfl := Option.some.inj hr
        exact ⟨hres, by simp [ho]⟩
      · rw [ho] at hr
        obtain rfl := Option.some.inj hr
        exact ⟨rfl, by simp [ho]⟩
  | freed => exact absurd o.grants_zero hgrants

theorem tsCopyArray_of_first {array : Ptr (List RawValue)} {n : ℕ} {o : Oracle} (h0 : o 0 = false)
    (hgrants : ¬ o.Grants (arrayAllocs array n)) :
    tsCopyArray array n o = some ((-1, .null), o.after 1) := by
  cases array with
  | null => exact absurd o.grants_zero hgrants
  | own elems =>
    rw [arrayAllocs] at hgrants
    split_ifs at hgrants with hn
    · exact absurd o.grants_zero hgrants
    · rw [tsCopyArray, if_neg hn, bind_of_eq (malloc_apply o), h0]
      exact rfl
  | freed => exact absurd o.grants_zero hgrants

/-- **A copy that is refused an allocation** fails. -/
theorem tsCopyValue_refused {v : RawValue} (hv : v.Sound) {o : Oracle}
    {r : (ℤ × RawValue) × Oracle} (hgrants : ¬ o.Grants v.allocs) (hr : tsCopyValue v o = some r) :
    Refused o r := by
  induction hv generalizing o r with
  | @intro v fits hsound ih =>
    rw [tsCopyValue_eq] at hr
    rw [allocs_eq, Oracle.grants_add, Oracle.grants_add] at hgrants
    have hstr0 := strAllocs_eq_zero_iff fits.str_ne
    have hvec0 := vecAllocs_eq_zero_iff (n := v.vecSize) fits.vec_ne
    -- The three stages; what was granted before the one that is refused is what dangles.
    by_cases hstr : o.Grants (strAllocs v.str)
    swap
    · obtain ⟨h0, hdup⟩ := dupStr_refused hstr
      rw [bind_of_eq hdup] at hr
      exact .of_copyFail (fun h => absurd (h0.symm.trans h) Bool.false_ne_true) hr
    rw [bind_of_eq (gives_dupStr fits.str_ne o hstr)] at hr
    by_cases hvec : (o.after (strAllocs v.str)).Grants (vecAllocs v.vec v.vecSize)
    swap
    · obtain ⟨h0, hdup⟩ := dupVec_refused hvec
      simp only [bind_of_eq hdup] at hr
      refine .of_copyFail (fun h => .inl fun hnull => ?_) hr
      rw [hstr0.mpr hnull, Oracle.after_zero] at h0
      exact Bool.false_ne_true (h0.symm.trans h)
    simp only [bind_of_eq (gives_dupVec fits.vec_ne fits.vecSize_le _ hvec)] at hr
    rw [Oracle.after_after] at hr
    have harray : ¬ (o.after (strAllocs v.str + vecAllocs v.vec v.vecSize)).Grants
        (arrayAllocs v.array v.arraySize) := fun h =>
      hgrants ⟨hstr, hvec, by rwa [Oracle.after_after]⟩
    obtain ⟨⟨res, copy⟩, o', hcopy, hr⟩ := bind_eq_some_iff.mp hr
    obtain ⟨hres, hnull⟩ := tsCopyArray_refused fits.size_own hsound
      (fun elems he e hmem o r => ih elems he e hmem) harray hcopy
    obtain rfl : res = -1 := hres
    rcases Bool.eq_false_or_eq_true ((o.after (strAllocs v.str + vecAllocs v.vec v.vecSize)) 0)
      with h0 | h0
    · have hcopy : copy ≠ .null := fun h => Bool.false_ne_true ((hnull.mp h).symm.trans h0)
      exact .of_copyFail (fun _ => .inr (.inr hcopy)) hr
    · refine .of_copyFail (fun h => ?_) hr
      by_cases hstrnull : v.str = .null
      · refine .inr (.inl fun hvecnull => ?_)
        rw [hstr0.mpr hstrnull, hvec0.mpr hvecnull, Oracle.after_zero] at h0
        exact Bool.false_ne_true (h0.symm.trans h)
      · exact .inl hstrnull

/-- A copy that fails at once owns nothing. -/
theorem tsCopyValue_of_first {v : RawValue} (hv : v.Sound) {o : Oracle} (h0 : o 0 = false)
    (hgrants : ¬ o.Grants v.allocs) : tsCopyValue v o =
      some ((-1, { v with str := .null, vec := .null, array := .null }), o.after 1) := by
  obtain ⟨fits, -⟩ := hv
  rw [tsCopyValue_eq]
  rw [allocs_eq, Oracle.grants_add, Oracle.grants_add] at hgrants
  by_cases hstr : o.Grants (strAllocs v.str)
  swap
  · rw [bind_of_eq (dupStr_refused hstr).2]
    exact copyFail_null _ _
  have hstr0 := hstr.eq_zero h0
  have hstrnull := (strAllocs_eq_zero_iff fits.str_ne).mp hstr0
  rw [bind_of_eq (gives_dupStr fits.str_ne o hstr), hstr0, Oracle.after_zero]
  rw [hstr0, Oracle.after_zero] at hgrants
  by_cases hvec : o.Grants (vecAllocs v.vec v.vecSize)
  swap
  · simp only [bind_of_eq (dupVec_refused hvec).2, hstrnull]
    exact copyFail_null _ _
  have hvec0 := hvec.eq_zero h0
  have hvecnull := (vecAllocs_eq_zero_iff fits.vec_ne).mp hvec0
  have harray : ¬ o.Grants (arrayAllocs v.array v.arraySize) := fun h =>
    hgrants ⟨o.grants_zero, hvec, by rwa [hvec0, Oracle.after_zero]⟩
  simp only [bind_of_eq (gives_dupVec fits.vec_ne fits.vecSize_le o hvec), hvec0,
    Oracle.after_zero, bind_of_eq (tsCopyArray_of_first h0 harray), hstrnull, hvecnull]
  exact copyFail_null _ _

/-! ### Sound values -/

theorem keepArray_own (elems : List RawValue) :
    keepArray (.own elems) elems.length =
      if elems = [] then .null else .own (elems.map RawValue.dup) := by
  rw [keepArray, dups_eq_map]
  simp only [List.length_eq_zero_iff]

theorem RawValue.Sound.of_null {v : RawValue} (hstr : v.str ≠ .freed) (hvec : v.vec = .null)
    (harray : v.array = .null) (hsize : v.arraySize = 0) : v.Sound :=
  .intro {
    str_ne := hstr
    vec_ne := by simp [hvec]
    vecSize_le := by simp [hvec]
    array_ne := by simp [harray]
    size_null := fun _ => hsize
    size_own := by simp [harray] } (by simp [harray])

theorem sound_tsInitValue : tsInitValue.Sound := .of_null (by simp [tsInitValue]) rfl rfl rfl

theorem RawValue.Sound.of_own {v : RawValue} {elems : List RawValue} (hstr : v.str ≠ .freed)
    (hvec : v.vec ≠ .freed) (hvecSize : ∀ vec, v.vec = .own vec → v.vecSize ≤ vec.length)
    (harray : v.array = .own elems) (hsize : v.arraySize = elems.length)
    (helems : ∀ e ∈ elems, e.Sound) : v.Sound :=
  .intro {
    str_ne := hstr
    vec_ne := hvec
    vecSize_le := hvecSize
    array_ne := by simp [harray]
    size_null := by simp [harray]
    size_own := by simpa [harray] using hsize } (by simpa [harray] using helems)

theorem keepVec_ne {vec : Ptr (List RawFloat)} {n : ℕ} (h : vec ≠ .freed) :
    keepVec vec n ≠ .freed := by
  cases vec with
  | null => exact h
  | own vec =>
    rw [keepVec]
    split_ifs <;> simp
  | freed => exact absurd rfl h

theorem length_keepVec {vec : Ptr (List RawFloat)} {n : ℕ} {kept : List RawFloat}
    (hn : ∀ l, vec = .own l → n ≤ l.length) (h : keepVec vec n = .own kept) : kept.length = n := by
  cases vec with
  | null => simp [keepVec] at h
  | own vec =>
    rw [keepVec] at h
    split_ifs at h
    rw [← Ptr.own.inj h, List.length_take, min_eq_left (hn vec rfl)]
  | freed => simp [keepVec] at h

/-- A copy of a sound value is sound. -/
theorem RawValue.Sound.dup {v : RawValue} (h : v.Sound) : v.dup.Sound := by
  induction h with
  | @intro v fits _ ih =>
    rw [dup_eq]
    have hvec := keepVec_ne (n := v.vecSize) fits.vec_ne
    have hvecSize := fun vec (h : keepVec v.vec v.vecSize = .own vec) =>
      (length_keepVec fits.vecSize_le h).ge
    rcases harray : v.array with _ | elems | _
    · refine .intro ⟨fits.str_ne, hvec, hvecSize, ?_, fun _ => fits.size_null harray, ?_⟩ ?_ <;>
        simp [keepArray]
    · rw [fits.size_own elems harray, keepArray_own]
      split_ifs with h0
      · refine .intro ⟨fits.str_ne, hvec, hvecSize, ?_, fun _ => ?_, ?_⟩ ?_ <;> simp [h0]
      · refine .of_own fits.str_ne hvec hvecSize rfl (List.length_map _).symm fun copy hcopy => ?_
        obtain ⟨e, he, rfl⟩ := List.mem_map.mp hcopy
        exact ih elems harray e he
    · exact absurd harray fits.array_ne

theorem tsDestroyElems_of_forall {elems : List RawValue}
    (h : ∀ e ∈ elems, (tsDestroyValue e).isSome) :
    tsDestroyElems elems elems.length = some () := by
  induction elems with
  | nil => rfl
  | cons e es ih =>
    obtain ⟨he, hes⟩ := List.forall_mem_cons.mp h
    obtain ⟨w, hw⟩ := Option.isSome_iff_exists.mp he
    rw [List.length_cons, tsDestroyElems, hw]
    exact ih hes

/-- A sound value can be destroyed. -/
theorem RawValue.Sound.destroyable {v : RawValue} (h : v.Sound) : (tsDestroyValue v).isSome := by
  induction h with
  | @intro v fits _ ih =>
    obtain ⟨type, str, inum, fnum, vec, vecSize, array, arraySize⟩ := v
    obtain ⟨str', hstr⟩ := Ptr.exists_free fits.str_ne
    obtain ⟨vec', hvec⟩ := Ptr.exists_free fits.vec_ne
    obtain ⟨array', harray⟩ := Ptr.exists_free fits.array_ne
    have hloop : tsDestroyArray array arraySize = some () := by
      cases array with
      | null => exact if_pos (fits.size_null rfl)
      | own elems =>
        obtain rfl : arraySize = elems.length := fits.size_own elems rfl
        exact tsDestroyElems_of_forall (ih elems rfl)
      | freed => exact absurd rfl fits.array_ne
    simp only [tsDestroyValue, hstr, hvec, hloop, harray]
    exact rfl

end Visftp.Raw
