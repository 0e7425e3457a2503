import Visftp.RawValues

/-!
# What the setters do

The functions of `treestor.c` that set a value, with their allocations granted and without. What
each of them does with the value it is given is in its definition; the lemmas here say what they
ask for, what they make, and that a loop that is refused an allocation fails.

## Main results

* `gives_copyArgs`, `copyArgs_refused` — the loop over the arguments
* `exists_setElems`, `gives_setElems` — the elements of a vector
* `gives_setNumber`, `gives_setVector`, `gives_tsSetValueArr` — the setters
-/

namespace Visftp.Raw

open Alloc

variable {tsv : RawValue} {count : ℤ}

theorem readArgs_of_le {α : Type} {arr : List α} (h : count ≤ arr.length) :
    readArgs count arr = pure (arr.take count.toNat) :=
  if_neg (not_lt.mpr h)

theorem length_take_toNat {α : Type} {arr : List α} (h : count ≤ arr.length) :
    (arr.take count.toNat).length = count.toNat := by
  rw [List.length_take]
  omega

/-! ### The loop over the arguments -/

/-- What the copies of the arguments ask for. -/
def argsAllocs (arr : List RawValue) : ℕ := (arr.map RawValue.allocs).sum

theorem gives_copyArgs {arr : List RawValue} (h : ∀ v ∈ arr, v.Sound) (done : List RawValue) :
    Gives (copyArgs done arr) (argsAllocs arr) (some (done ++ arr.map RawValue.dup)) := by
  induction arr generalizing done with
  | nil =>
    rw [List.map_nil, List.append_nil]
    exact .pure _
  | cons e es ih =>
    obtain ⟨he, hes⟩ := List.forall_mem_cons.mp h
    have hmore := ih hes (done ++ [e.dup])
    rw [List.append_assoc, List.singleton_append] at hmore
    rw [argsAllocs, List.map_cons, List.sum_cons, List.map_cons]
    exact (gives_tsCopyValue he).bind hmore

theorem copyArgs_refused {arr done : List RawValue} {o : Oracle}
    {r : Option (List RawValue) × Oracle} (h : ∀ v ∈ arr, v.Sound)
    (hgrants : ¬ o.Grants (argsAllocs arr)) (hr : copyArgs done arr o = some r) : r.1 = none := by
  induction arr generalizing done o with
  | nil => exact absurd o.grants_zero hgrants
  | cons e es ih =>
    obtain ⟨he, hes⟩ := List.forall_mem_cons.mp h
    rw [argsAllocs, List.map_cons, List.sum_cons, Oracle.grants_add] at hgrants
    by_cases hg : o.Grants e.allocs
    · rw [copyArgs, bind_of_eq (gives_tsCopyValue he o hg)] at hr
      exact ih hes (fun hmore => hgrants ⟨hg, hmore⟩) hr
    · obtain ⟨⟨res, elem⟩, o', hcopy, hr⟩ := bind_eq_some_iff.mp hr
      obtain rfl : res = -1 := (tsCopyValue_refused he hg hcopy).res_eq
      obtain ⟨_, _, _, hr⟩ := bind_eq_some_iff.mp hr
      obtain rfl := Option.some.inj hr
      rfl

/-! ### Numbers and vectors -/

section Numbers

variable {α : Type} (K : NumKind α)

/-- A value that was set to a number. -/
def RawValue.withNumber (tsv : RawValue) (x : α) : RawValue :=
  { tsv with
    str := .own (K.text x), type := .number, fnum := K.toFloat x, inum := K.toInt x }

/-- The element of a vector. -/
def elemOf (x : RawFloat) : RawValue := tsInitValue.withNumber floatKind x

/-- A vector with its elements. -/
def RawValue.withVector (tsv : RawValue) (vec : List RawFloat) (elems : List RawValue) :
    RawValue :=
  { tsv with
    type := .vector
    vec := .own vec
    vecSize := vec.length
    array := .own elems
    arraySize := vec.length }

theorem gives_setNumber (tsv : RawValue) (x : α) :
    Gives (setNumber K tsv x) 1 (0, tsv.withNumber K x) :=
  Gives.malloc.bind_pure rfl

theorem setNumber_of_false {o : Oracle} (tsv : RawValue) (x : α) (h : o 0 = false) :
    setNumber K tsv x o = some ((-1, { tsv with str := .null }), o.after 1) := by
  rw [setNumber, bind_of_eq (malloc_apply o), h]
  exact rfl

theorem gives_setElems (xs : List RawFloat) :
    Gives (setElems xs) xs.length (xs.map elemOf) := by
  induction xs with
  | nil => exact .pure _
  | cons x xs ih =>
    rw [List.length_cons, Nat.add_comm]
    exact (gives_setNumber _ _ _).bind (ih.bind_pure rfl)

/-- The elements of a vector are there also when the text of one is not. -/
theorem exists_setElems (xs : List RawFloat) (o : Oracle) : ∃ elems o',
    setElems xs o = some (elems, o') ∧ elems.length = xs.length ∧ ∀ e ∈ elems, e.Sound := by
  induction xs generalizing o with
  | nil => exact ⟨[], o, rfl, rfl, by simp⟩
  | cons x xs ih =>
    have hset : ∃ res elem, tsSetValuef tsInitValue x o = some ((res, elem), o.after 1) ∧
        elem.Sound := by
      rcases Bool.eq_false_or_eq_true (o 0) with h0 | h0
      · exact ⟨_, _, gives_setNumber _ _ _ o (Oracle.grants_one.mpr h0),
          .of_null (by simp [RawValue.withNumber]) rfl rfl rfl⟩
      · exact ⟨_, _, setNumber_of_false _ _ _ h0, .of_null (by simp) rfl rfl rfl⟩
    obtain ⟨res, elem, hset, helem⟩ := hset
    obtain ⟨elems, o', helems, hlen, hsound⟩ := ih (o.after 1)
    refine ⟨elem :: elems, o', ?_, congrArg (· + 1) hlen, List.forall_mem_cons.mpr ⟨helem, hsound⟩⟩
    rw [setElems, bind_of_eq hset]
    exact bind_of_eq helems _

/-- The vector is made as soon as there is storage for it, with the elements that there are. -/
theorem exists_setVector {o : Oracle} (tsv : RawValue) (vec : List RawFloat) (h : o.Grants 2) :
    ∃ elems o', setVector tsv vec o = some ((0, tsv.withVector vec elems), o') ∧
      elems.length = vec.length ∧ ∀ e ∈ elems, e.Sound := by
  obtain ⟨elems, o', helems, hlen, hsound⟩ := exists_setElems vec (o.after 2)
  refine ⟨elems, o', ?_, hlen, hsound⟩
  rw [setVector, bind_of_eq (malloc_apply o), h 0 Nat.two_pos, if_pos rfl,
    bind_of_eq (malloc_apply _), show o.after 1 0 = true from h 1 Nat.one_lt_two, if_pos rfl,
    Oracle.after_after, bind_of_eq helems]
  exact rfl

theorem setVector_of_false {o : Oracle} (vec : List RawFloat) (h : o 0 = false) :
    setVector tsv vec o = some ((-1, { tsv with vec := .null }), o.after 1) := by
  rw [setVector, bind_of_eq (malloc_apply o), h]
  exact rfl

/-- Without storage for the array, its elements are written all the same. -/
theorem setVector_eq_none {o : Oracle} (vec : List RawFloat) (h0 : o 0 = true)
    (h1 : o 1 = false) : setVector tsv vec o = none := by
  rw [setVector, bind_of_eq (malloc_apply o), h0, if_pos rfl, bind_of_eq (malloc_apply _),
    show o.after 1 0 = false from h1]
  exact rfl

theorem gives_setVector (vec : List RawFloat) : Gives (setVector tsv vec) (1 + (1 + vec.length))
    (0, tsv.withVector vec (vec.map elemOf)) :=
  Gives.malloc.bind (Gives.malloc.bind ((gives_setElems vec).bind_pure rfl))

/-! ### The setters -/

/-- A list of two elements or more is not one of a single element. -/
theorem exists_of_two_le {α : Type} {arr : List α} (h2 : 2 ≤ count) (h : count ≤ arr.length) :
    ∃ x y rest, arr.take count.toNat = x :: y :: rest := by
  have hlen := length_take_toNat h
  rcases hargs : arr.take count.toNat with _ | ⟨x, _ | ⟨y, rest⟩⟩
  · rw [hargs, List.length_nil] at hlen
    omega
  · rw [hargs, List.length_singleton] at hlen
    omega
  · exact ⟨x, y, rest, rfl⟩

theorem setNumbers_of_lt (arr : List α) (h : count < 1) :
    setNumbers K tsv count arr = pure (-1, tsv) :=
  if_pos h

/-- One number. -/
theorem setNumbers_one (tsv : RawValue) (x : α) (arr : List α) :
    setNumbers K tsv 1 (x :: arr) = setNumber K tsv x := by
  rw [setNumbers, if_neg (lt_irrefl 1), readArgs_of_le (by simp), pure_bind]
  exact rfl

/-- Several numbers. -/
theorem setNumbers_of_two_le {arr : List α} (h2 : 2 ≤ count) (h : count ≤ arr.length) :
    setNumbers K tsv count arr = setVector tsv ((arr.take count.toNat).map K.toFloat) := by
  rw [setNumbers, if_neg (by omega), readArgs_of_le h, pure_bind]
  obtain ⟨x, y, rest, hargs⟩ := exists_of_two_le h2 h
  rw [hargs]

end Numbers

theorem tsSetValueArr_of_le (arr : List RawValue) (h : count ≤ 1) :
    tsSetValueArr tsv count arr = pure (-1, tsv) :=
  if_pos h

/-- Whether an array is one of numbers only. -/
def allnum (arr : List RawValue) : Bool := arr.all (·.type = .number)

/-- What the vector of an array asks for. -/
def kindAllocs (arr : List RawValue) : ℕ := if allnum arr then 1 else 0

/-- What `ts_set_value_arr` makes of its arguments. -/
def RawValue.withArray (tsv : RawValue) (arr : List RawValue) : RawValue :=
  { tsv with
    type := if allnum arr then .vector else .array
    vec := if allnum arr then .own ((arr.map RawValue.dup).map RawValue.fnum) else tsv.vec
    array := .own (arr.map RawValue.dup)
    arraySize := arr.length }

/-- What an array of these values asks for, itself and its vector included. -/
def setAllocs (arr : List RawValue) : ℕ := 1 + (argsAllocs arr + kindAllocs arr)

theorem sound_withArray {arr : List RawValue} (h : ∀ v ∈ arr, v.Sound) :
    (tsInitValue.withArray arr).Sound := by
  refine .of_own ?_ ?_ (fun vec _ => Nat.zero_le _) rfl (List.length_map _).symm ?_
  · simp [RawValue.withArray, tsInitValue]
  · rw [RawValue.withArray]
    split_ifs <;> simp [tsInitValue]
  · intro copy hcopy
    obtain ⟨v, hv, rfl⟩ := List.mem_map.mp hcopy
    exact (h v hv).dup

theorem gives_setKind (tsv : RawValue) (arr : List RawValue) : Gives
    (setKind { tsv with array := .own (arr.map RawValue.dup), arraySize := arr.length } (allnum arr)
      (arr.map RawValue.dup)) (kindAllocs arr) (0, tsv.withArray arr) := by
  rw [setKind, kindAllocs, RawValue.withArray]
  split_ifs with h
  · exact Gives.malloc.bind_pure rfl
  · exact .pure _

/-- **An array with its allocations granted**: copies of the arguments, and a vector, but not its
size, when they are numbers. -/
theorem gives_tsSetValueArr (tsv : RawValue) {arr : List RawValue} (h2 : 2 ≤ count)
    (hlen : count ≤ arr.length) (h : ∀ v ∈ arr, v.Sound) : Gives (tsSetValueArr tsv count arr)
      (setAllocs (arr.take count.toNat)) (0, tsv.withArray (arr.take count.toNat)) := by
  rw [tsSetValueArr, if_neg (by omega), readArgs_of_le hlen, pure_bind]
  have hkind := gives_setKind tsv (arr.take count.toNat)
  rw [length_take_toNat hlen] at hkind
  exact Gives.malloc.bind
    ((gives_copyArgs (fun v hv => h v (List.mem_of_mem_take hv)) []).bind hkind)

theorem tsSetValueArr_of_false {arr : List RawValue} {o : Oracle} (h2 : 2 ≤ count)
    (hlen : count ≤ arr.length) (h0 : o 0 = false) :
    tsSetValueArr tsv count arr o = some ((-1, { tsv with array := .null }), o.after 1) := by
  rw [tsSetValueArr, if_neg (by omega), readArgs_of_le hlen, pure_bind,
    bind_of_eq (malloc_apply o), h0]
  exact rfl

/-- A value that was destroyed still has its pointers. -/
theorem array_of_tsDestroyValue {v w : RawValue} (h : tsDestroyValue v = some w) :
    w.array = v.array.released := by
  obtain ⟨type, str, inum, fnum, vec, vecSize, array, arraySize⟩ := v
  rw [tsDestroyValue] at h
  obtain ⟨str', -, h⟩ := Option.bind_eq_some_iff.mp h
  obtain ⟨vec', -, h⟩ := Option.bind_eq_some_iff.mp h
  obtain ⟨-, -, h⟩ := Option.bind_eq_some_iff.mp h
  obtain ⟨array', harray, h⟩ := Option.bind_eq_some_iff.mp h
  rw [← Option.some.inj h]
  exact Ptr.released_of_free harray

theorem setKind_refused {arr elems : List RawValue} {o : Oracle} {r : (ℤ × RawValue) × Oracle}
    (harray : tsv.array ≠ .null) (hgrants : ¬ o.Grants (kindAllocs arr))
    (hr : setKind tsv (allnum arr) elems o = some r) : r.1.1 = -1 ∧ r.1.2.Dangles := by
  rw [kindAllocs] at hgrants
  split_ifs at hgrants with hall
  · rw [Oracle.grants_one, Bool.not_eq_true] at hgrants
    rw [setKind, if_pos hall, bind_of_eq (malloc_apply o), hgrants] at hr
    obtain ⟨w, o', hdestroy, hr⟩ := bind_eq_some_iff.mp hr
    have hw := array_of_tsDestroyValue (check_eq_some_iff.mp hdestroy).1
    obtain rfl := Option.some.inj hr
    exact ⟨rfl, .inr (.inr (hw.trans (Ptr.released_eq_freed harray)))⟩
  · exact absurd o.grants_zero hgrants

/-- **An array that is refused an allocation** after its first: either the array is gone while
its size says otherwise, or what was released is still referred to. -/
theorem tsSetValueArr_refused {arr : List RawValue} {o : Oracle} {r : (ℤ × RawValue) × Oracle}
    (h2 : 2 ≤ count) (hlen : count ≤ arr.length) (h : ∀ v ∈ arr, v.Sound) (h0 : o 0 = true)
    (hgrants : ¬ o.Grants (setAllocs (arr.take count.toNat)))
    (hr : tsSetValueArr tsv count arr o = some r) :
    r.1.1 = -1 ∧ (r.1.2.array = .null ∧ r.1.2.arraySize ≠ 0 ∨ r.1.2.Dangles) := by
  rw [tsSetValueArr, if_neg (by omega), readArgs_of_le hlen, pure_bind,
    bind_of_eq (malloc_apply o), h0, if_pos rfl] at hr
  rw [setAllocs, Oracle.grants_add, Oracle.grants_one, Oracle.grants_add] at hgrants
  have hsound : ∀ v ∈ arr.take count.toNat, v.Sound := fun v hv => h v (List.mem_of_mem_take hv)
  by_cases hargs : (o.after 1).Grants (argsAllocs (arr.take count.toNat))
  · rw [bind_of_eq (gives_copyArgs hsound [] _ hargs)] at hr
    exact (setKind_refused (by simp) (fun hkind => hgrants ⟨h0, hargs, hkind⟩) hr).imp id .inr
  · obtain ⟨res, o', hcopies, hr⟩ := bind_eq_some_iff.mp hr
    obtain rfl : res = none := copyArgs_refused hsound hargs hcopies
    obtain rfl := Option.some.inj hr
    refine ⟨rfl, .inl ⟨rfl, ?_⟩⟩
    show count.toNat ≠ 0
    omega

end Visftp.Raw
