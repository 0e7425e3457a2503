import Visftp.RawSetters

/-!
# The tree store over its storage

`TreeStore` has values whose lists are there or not, `RawValues` has the pointers to them and the
allocations that these come from. A value of the one is a value of the other with a null pointer for
each list that is empty (`ofTs`), and when its allocations are granted a function over the storage
does with it what the function of the tree store does.

## Main results

* `gives_tsCopyValue_ofTs`, `gives_tsSetValueStr_ofTs`, `gives_tsSetValuef_ofTs`,
  `gives_tsSetValueArr_ofTs` — one function each
-/

namespace Visftp.Raw

open Alloc

/-- The pointer to a string. -/
def ofStr : Option Bytes → Ptr Bytes
  | none => .null
  | some str => .own str

/-- The pointer to a list, null when it is empty. -/
def ofList {α : Type} : List α → Ptr (List α)
  | [] => .null
  | l => .own l

mutual

/-- A value of the tree store with its pointers. -/
def ofTs : TsValue → RawValue
  | ⟨type, str, inum, fnum, vec, vecSize, array⟩ =>
    ⟨type, ofStr str, inum, .num fnum, ofList (vec.map .num), vecSize, ofList (ofTsList array),
      array.length⟩

/-- The elements of an array with their pointers. -/
def ofTsList : List TsValue → List RawValue
  | [] => []
  | v :: vs => ofTs v :: ofTsList vs

end

theorem ofTsList_eq_map (vs : List TsValue) : ofTsList vs = vs.map ofTs := by
  induction vs with
  | nil => rfl
  | cons v vs ih => rw [ofTsList, ih, List.map_cons]

theorem ofTs_eq (v : TsValue) : ofTs v =
    ⟨v.type, ofStr v.str, v.inum, .num v.fnum, ofList (v.vec.map .num), v.vecSize,
      ofList (v.array.map ofTs), v.array.length⟩ := by
  obtain ⟨type, str, inum, fnum, vec, vecSize, array⟩ := v
  rw [ofTs, ofTsList_eq_map]

theorem ofList_of_ne {α : Type} {l : List α} (h : l ≠ []) : ofList l = .own l := by
  cases l with
  | nil => exact absurd rfl h
  | cons a l => rfl

theorem keepVec_ofList (vec : List RawFloat) (n : ℕ) :
    keepVec (ofList vec) n = ofList (vec.take n) := by
  rcases eq_or_ne vec [] with rfl | hne
  · rw [List.take_nil]
    exact rfl
  · rw [ofList_of_ne hne, keepVec]
    split_ifs with hn
    · rw [hn, List.take_zero]
      exact rfl
    · exact (ofList_of_ne (by simp [hn, hne])).symm

theorem keepArray_ofList (elems : List RawValue) :
    keepArray (ofList elems) elems.length = ofList (elems.map RawValue.dup) := by
  rcases eq_or_ne elems [] with rfl | hne
  · rfl
  · rw [ofList_of_ne hne, keepArray_own, if_neg hne]
    exact (ofList_of_ne (by simpa using hne)).symm

/-- A copy of a value is the copy in the tree store. -/
theorem dup_ofTs (v : TsValue) : (ofTs v).dup = ofTs (Visftp.tsCopyValue v) := by
  induction v using TsValue.induct with
  | h v ih =>
    have harray : (v.array.map ofTs).map RawValue.dup =
        (v.array.map Visftp.tsCopyValue).map ofTs := by
      rw [List.map_map, List.map_map]
      exact List.map_congr_left ih
    have hkeep := keepArray_ofList (v.array.map ofTs)
    rw [List.length_map, harray] at hkeep
    rw [dup_eq, ofTs_eq, Visftp.tsCopyValue_eq, ofTs_eq]
    simp only [keepVec_ofList, hkeep, List.map_take, List.length_map]

theorem gives_tsCopyValue_ofTs {v : TsValue} (h : (ofTs v).Sound) :
    Gives (tsCopyValue (ofTs v)) (ofTs v).allocs (0, ofTs (Visftp.tsCopyValue v)) := by
  rw [← dup_ofTs]
  exact gives_tsCopyValue h

theorem gives_tsSetValuef_ofTs (tsv : TsValue) (x : CFloat) :
    Gives (tsSetValuef (ofTs tsv) (.num x)) 1 (0, ofTs (Visftp.tsSetValuef tsv x)) := by
  have hset := gives_setNumber floatKind (ofTs tsv) (.num x)
  rw [ofTs_eq] at hset ⊢
  rw [Visftp.tsSetValuef, ofTs_eq]
  exact hset

theorem ofTs_tsInitValue : ofTs Visftp.tsInitValue = tsInitValue := by
  rw [ofTs_eq]
  exact rfl

/-- The old value is cleared over the storage where it is in the tree store. -/
theorem clearStr_ofTs {tsv : TsValue} (h : (ofTs tsv).Sound) :
    clearStr (ofTs tsv) = some (ofTs (if tsv.str.isSome then Visftp.tsInitValue else tsv)) := by
  obtain ⟨dead, hdead⟩ := Option.isSome_iff_exists.mp h.destroyable
  have hstr : (ofTs tsv).str = ofStr tsv.str := by rw [ofTs_eq]
  rw [clearStr, hstr]
  cases tsv.str with
  | none => rfl
  | some str =>
    rw [Option.isSome_some, if_pos rfl, ofTs_tsInitValue]
    simp only [ofStr, hdead]
    exact rfl

theorem gives_tsSetValueStr_ofTs {tsv : TsValue} (h : (ofTs tsv).Sound) (s : Bytes) :
    Gives (tsSetValueStr (ofTs tsv) s) 1 (0, ofTs (Visftp.tsSetValueStr tsv s)) := by
  rw [tsSetValueStr, clearStr_ofTs h, check_some, pure_bind, Visftp.tsSetValueStr, ofTs_eq, ofTs_eq]
  exact Gives.malloc.bind_pure rfl

/-- Whether an array is one of numbers only does not depend on the storage. -/
theorem allnum_ofTs (arr : List TsValue) :
    allnum (arr.map ofTs) = true ↔ ∀ v ∈ arr, v.type = .number := by
  simp [allnum, ofTs_eq]

theorem map_dup_ofTs (arr : List TsValue) :
    (arr.map ofTs).map RawValue.dup = (arr.map Visftp.tsCopyValue).map ofTs := by
  rw [List.map_map, List.map_map]
  exact List.map_congr_left fun v _ => dup_ofTs v

theorem map_fnum_ofTs (arr : List TsValue) :
    (arr.map ofTs).map RawValue.fnum = (arr.map TsValue.fnum).map .num := by
  rw [List.map_map, List.map_map]
  exact List.map_congr_left fun v _ => by rw [Function.comp_apply, ofTs_eq, Function.comp_apply]

/-- **An array is set in the tree store** exactly when it is set over the storage, to the same
value. -/
theorem gives_tsSetValueArr_ofTs {tsv : TsValue} {arr : List TsValue}
    (h : ∀ v ∈ arr, (ofTs v).Sound) :
    (∀ w, Visftp.tsSetValueArr tsv arr = some w →
      Gives (tsSetValueArr (ofTs tsv) arr.length (arr.map ofTs)) (setAllocs (arr.map ofTs))
        (0, ofTs w)) ∧
    (Visftp.tsSetValueArr tsv arr = none →
      tsSetValueArr (ofTs tsv) arr.length (arr.map ofTs) = pure (-1, ofTs tsv)) := by
  constructor
  · intro w hw
    obtain ⟨hlen, hcases⟩ := Visftp.tsSetValueArr_eq_some_iff.mp hw
    have hne : arr ≠ [] := by
      rintro rfl
      simp at hlen
    have hcount : (2 : ℤ) ≤ arr.length := by omega
    have hgives := gives_tsSetValueArr (ofTs tsv) hcount
      (show (arr.length : ℤ) ≤ (arr.map ofTs).length by simp) (by simpa using h)
    have hall : (arr.map ofTs).take ((arr.length : ℤ).toNat) = arr.map ofTs := by simp
    have hwith : (ofTs tsv).withArray (arr.map ofTs) = ofTs w := by
      have harray : ofList ((arr.map Visftp.tsCopyValue).map ofTs) = .own _ :=
        ofList_of_ne (by simpa using hne)
      have hvec : ofList (((arr.map Visftp.tsCopyValue).map TsValue.fnum).map RawFloat.num) =
          .own _ := ofList_of_ne (by simpa using hne)
      rw [RawValue.withArray, map_dup_ofTs, map_fnum_ofTs, ofTs_eq w]
      rcases hcases with ⟨hnum, rfl⟩ | ⟨hnum, rfl⟩
      · simp only [if_pos ((allnum_ofTs arr).mpr hnum), harray, hvec, ofTs_eq tsv, List.length_map]
      · simp only [if_neg ((allnum_ofTs arr).not.mpr hnum), harray, ofTs_eq tsv, List.length_map]
    rwa [hall, hwith] at hgives
  · intro hnone
    refine tsSetValueArr_of_le _ ?_
    by_contra hlen
    rw [Visftp.tsSetValueArr, if_neg (by omega)] at hnone
    split_ifs at hnone

end Visftp.Raw
