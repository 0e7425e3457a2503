import Visftp.RawSetters

/-!
# Values and failing allocations

After a function on a fresh value returns, whether it failed or not, the value should be one that
`ts_destroy_value` takes: with no size where there is no array, and after a failure with no pointer
to what was released. This holds of a copy when all its allocations succeed or already the first one
fails, and likewise of an array; in between, the functions release what they have and leave the
pointers and the sizes.

## Main definitions

* `Leaves` — what a call should leave behind

## Main results

* `leaves_tsCopyValue_iff`, `leaves_tsSetValueArr_iff`, `leaves_setNumbers_iff` — one function
* `leaves_iff` — all of them
-/

namespace Visftp.Raw

open Alloc

/-- The call returns, nothing was written through a null pointer, and the value it leaves can be
destroyed: its size is zero where it has no array, and after a failure it does not refer to anything
that was released. -/
def Leaves (r : Option ((ℤ × RawValue) × Oracle)) : Prop :=
  ∃ res dest o, r = some ((res, dest), o) ∧ (tsDestroyValue dest).isSome ∧
    (dest.array = .null → dest.arraySize = 0) ∧ (res = -1 → ¬ dest.Dangles)

theorem not_leaves_none : ¬ Leaves none := by
  rintro ⟨res, dest, o, h, -⟩
  simp at h

/-- A sound value is left. -/
theorem leaves_of_sound {res : ℤ} {dest : RawValue} {o : Oracle} (h : dest.Sound) :
    Leaves (some ((res, dest), o)) := by
  refine ⟨res, dest, o, rfl, h.destroyable, ?_, fun _ => ?_⟩
  · obtain ⟨fits, -⟩ := h
    exact fits.size_null
  · obtain ⟨fits, -⟩ := h
    exact not_or.mpr ⟨fits.str_ne, not_or.mpr ⟨fits.vec_ne, fits.array_ne⟩⟩

theorem not_leaves_of_dangles {r : (ℤ × RawValue) × Oracle} (hres : r.1.1 = -1)
    (h : r.1.2.Dangles) : ¬ Leaves (some r) := by
  rintro ⟨res, dest, o, hr, -, -, hdangles⟩
  obtain rfl := Option.some.inj hr
  exact hdangles hres h

variable {o : Oracle}

theorem leaves_tsCopyValue_iff {src : RawValue} (h : src.Sound) :
    Leaves (tsCopyValue src o) ↔ o.Grants src.allocs ∨ o 0 = false ∧ src.arraySize = 0 := by
  by_cases hgrants : o.Grants src.allocs
  · rw [gives_tsCopyValue h o hgrants]
    exact iff_of_true (leaves_of_sound h.dup) (.inl hgrants)
  rcases Bool.eq_false_or_eq_true (o 0) with h0 | h0
  · refine iff_of_false ?_ (by simp [hgrants, h0])
    rcases hr : tsCopyValue src o with _ | r
    · exact not_leaves_none
    · have hrefused := tsCopyValue_refused h hgrants hr
      exact not_leaves_of_dangles hrefused.res_eq (hrefused.dangles h0)
  · rw [tsCopyValue_of_first h h0 hgrants]
    constructor
    · rintro ⟨res, dest, o', hr, -, hsize, -⟩
      obtain ⟨⟨-, rfl⟩, -⟩ := by simpa using hr
      exact .inr ⟨h0, hsize rfl⟩
    · rintro (hg | ⟨-, hsize⟩)
      · exact absurd hg hgrants
      · exact leaves_of_sound (.of_null (by simp) rfl rfl hsize)

/-- A fresh value, also when a pointer of it was set to null again. -/
theorem leaves_fresh {res : ℤ} : Leaves (some ((res, tsInitValue), o)) :=
  leaves_of_sound sound_tsInitValue

theorem leaves_setNumber {α : Type} (K : NumKind α) (x : α) :
    Leaves (setNumber K tsInitValue x o) := by
  rcases Bool.eq_false_or_eq_true (o 0) with h0 | h0
  · rw [gives_setNumber K _ x o (Oracle.grants_one.mpr h0)]
    exact leaves_of_sound (.of_null (by simp [RawValue.withNumber]) rfl rfl rfl)
  · rw [setNumber_of_false K _ x h0]
    exact leaves_fresh

theorem leaves_setVector_iff (vec : List RawFloat) :
    Leaves (setVector tsInitValue vec o) ↔ ¬ (o 0 = true ∧ o 1 = false) := by
  rcases Bool.eq_false_or_eq_true (o 0) with h0 | h0
  swap
  · rw [setVector_of_false vec h0]
    exact iff_of_true leaves_fresh (by simp [h0])
  rcases Bool.eq_false_or_eq_true (o 1) with h1 | h1
  · obtain ⟨elems, o', hset, hlen, hsound⟩ := exists_setVector (o := o) tsInitValue vec
      (Oracle.grants_add.mpr ⟨Oracle.grants_one.mpr h0, Oracle.grants_one.mpr h1⟩)
    rw [hset]
    refine iff_of_true (leaves_of_sound ?_) (by simp [h1])
    refine .of_own ?_ ?_ ?_ rfl hlen.symm hsound
    · simp [RawValue.withVector, tsInitValue]
    · simp [RawValue.withVector]
    · simp [RawValue.withVector]
  · rw [setVector_eq_none vec h0 h1]
    exact iff_of_false not_leaves_none (by simp [h0, h1])

/-- The setters with numbers: only what a vector is released for goes wrong. -/
theorem leaves_setNumbers_iff {α : Type} (K : NumKind α) {count : ℤ} {arr : List α}
    (hlen : count ≤ arr.length) : Leaves (setNumbers K tsInitValue count arr o) ↔
      ¬ (2 ≤ count ∧ o 0 = true ∧ o 1 = false) := by
  rcases lt_trichotomy count 1 with hlt | rfl | hgt
  · rw [setNumbers_of_lt K arr hlt]
    exact iff_of_true leaves_fresh (by omega)
  · cases arr with
    | nil => simp at hlen
    | cons x arr =>
      rw [setNumbers_one]
      exact iff_of_true (leaves_setNumber K x) (by omega)
  · rw [setNumbers_of_two_le K hgt hlen, leaves_setVector_iff]
    simp [show 2 ≤ count from hgt]

theorem leaves_tsSetValueArr_iff {count : ℤ} {arr : List RawValue} (hlen : count ≤ arr.length)
    (h : ∀ v ∈ arr, v.Sound) :
    Leaves (tsSetValueArr tsInitValue count arr o) ↔
      count ≤ 1 ∨ o 0 = false ∨ o.Grants (setAllocs (arr.take count.toNat)) := by
  rcases le_or_gt count 1 with hle | hgt
  · rw [tsSetValueArr_of_le arr hle]
    exact iff_of_true leaves_fresh (.inl hle)
  rcases Bool.eq_false_or_eq_true (o 0) with h0 | h0
  swap
  · rw [tsSetValueArr_of_false hgt hlen h0]
    exact iff_of_true leaves_fresh (.inr (.inl h0))
  by_cases hgrants : o.Grants (setAllocs (arr.take count.toNat))
  · rw [gives_tsSetValueArr tsInitValue hgt hlen h o hgrants]
    exact iff_of_true (leaves_of_sound
      (sound_withArray fun v hv => h v (List.mem_of_mem_take hv))) (.inr (.inr hgrants))
  · refine iff_of_false ?_ (by simp [h0, hgrants, hgt])
    rcases hr : tsSetValueArr tsInitValue count arr o with _ | r
    · exact not_leaves_none
    obtain ⟨hres, ⟨hnull, hsize⟩ | hdangles⟩ := tsSetValueArr_refused hgt hlen h h0 hgrants hr
    · rintro ⟨res, dest, o', hr, -, hzero, -⟩
      obtain rfl := Option.some.inj hr
      exact hsize (hzero hnull)
    · exact not_leaves_of_dangles hres hdangles

/-- **When a function leaves a value that can be destroyed**, whichever allocations fail. A copy
does when it gets all it asks for, or fails at once and there is no array to copy; an array of
values when it gets all it asks for or not even its storage; a vector of numbers when the storage of
the array does not fail alone. -/
theorem leaves_iff (o : Oracle) (count : ℤ) :
    (∀ src : RawValue, src.Sound → (Leaves (tsCopyValue src o) ↔
      o.Grants src.allocs ∨ o 0 = false ∧ src.arraySize = 0)) ∧
    (∀ arr : List RawValue, count ≤ arr.length → (∀ v ∈ arr, v.Sound) →
      (Leaves (tsSetValueArr tsInitValue count arr o) ↔
        count ≤ 1 ∨ o 0 = false ∨ o.Grants (setAllocs (arr.take count.toNat)))) ∧
    (∀ arr : List ℤ, count ≤ arr.length → (Leaves (tsSetValueiArr tsInitValue count arr o) ↔
      ¬ (2 ≤ count ∧ o 0 = true ∧ o 1 = false))) ∧
    ∀ arr : List RawFloat, count ≤ arr.length →
      (Leaves (tsSetValuefArr tsInitValue count arr o) ↔
        ¬ (2 ≤ count ∧ o 0 = true ∧ o 1 = false)) :=
  ⟨fun _ h => leaves_tsCopyValue_iff h, fun _ hlen h => leaves_tsSetValueArr_iff hlen h,
    fun _ => leaves_setNumbers_iff intKind, fun _ => leaves_setNumbers_iff floatKind⟩

/-- The strings `a` and `b` in an array. -/
def twoStrings : RawValue :=
  tsInitValue.withArray
    [{ tsInitValue with str := .own [97] }, { tsInitValue with str := .own [98] }]

theorem sound_twoStrings : twoStrings.Sound := by
  refine sound_withArray fun v hv => ?_
  rcases List.mem_pair.mp hv with rfl | rfl <;> exact .of_null (by simp) rfl rfl rfl

/-- An array of two strings with its three allocations, and two numbers. -/
theorem leaves_iff_twoStrings :
    (Leaves (tsCopyValue twoStrings (· < 3)) ↔
      Oracle.Grants (· < 3) twoStrings.allocs ∨
        (decide (0 < 3)) = false ∧ twoStrings.arraySize = 0) ∧
    (Leaves (tsSetValueArr tsInitValue 2 [twoStrings, twoStrings] (· < 9)) ↔
      (2 : ℤ) ≤ 1 ∨ (decide (0 < 9)) = false ∨
        Oracle.Grants (· < 9) (setAllocs [twoStrings, twoStrings])) ∧
    (Leaves (tsSetValueiArr tsInitValue 2 [1, 2] (· < 4)) ↔
      ¬ ((2 : ℤ) ≤ 2 ∧ decide (0 < 4) = true ∧ decide (1 < 4) = false)) :=
  ⟨(leaves_iff (· < 3) 2).1 twoStrings sound_twoStrings,
    (leaves_iff (· < 9) 2).2.1 _ (by decide)
      (fun v hv => by rcases List.mem_pair.mp hv with rfl | rfl <;> exact sound_twoStrings),
    (leaves_iff (· < 4) 2).2.2.1 _ (by decide)⟩

/-- The second string is not copied, after the array and the first string were; the array is not
there for two numbers. -/
theorem not_leaves :
    ¬ Leaves (tsCopyValue twoStrings (· < 2)) ∧
    ¬ Leaves (tsSetValueArr tsInitValue 2 [twoStrings, twoStrings] (· < 2)) ∧
    ¬ Leaves (tsSetValueiArr tsInitValue 2 [1, 2] (· < 1)) := by
  refine ⟨fun h => ?_, fun h => ?_, fun h => ?_⟩
  · exact absurd ((leaves_tsCopyValue_iff sound_twoStrings).mp h) (by decide)
  · refine absurd ((leaves_tsSetValueArr_iff (by decide) fun v hv => ?_).mp h) (by decide)
    rcases List.mem_pair.mp hv with rfl | rfl <;> exact sound_twoStrings
  · exact absurd ((leaves_setNumbers_iff intKind (by decide)).mp h) (by decide)

end Visftp.Raw
