import Visftp.SetterLaws

/-!
# Values built by the setters

A value made from a fresh one by a setter, of which the elements of an array were made in the same
way, with every allocation granted. What such a value is made of is a tree, `Build`. It is the
value that the header describes, and its copies are equal to it, unless somewhere in the tree an
array was set from values that are all numbers: it becomes a vector whose size is not set, and a
copy of such a vector has lost the numbers.

## Main definitions

* `Build`, `Build.value` — what was set, and the value it makes
* `RawValue.AsStated` — the value is as the header says, in all its elements too
* `Build.Holds` — the value has what was set
* `Build.Mixed` — no array was set from numbers only

## Main results

* `sound_of_value` — a value that was built is sound
* `asStated_iff` — when a value is as stated, and equal to its copies
-/

namespace Visftp.Raw

open Alloc

/-- What a value is built from: the call of a setter, with the values that an array is set from. -/
inductive Build
  | str (s : Bytes)
  | ints (arr : List ℤ)
  | floats (arr : List RawFloat)
  | values (elems : List Build)

/-- The value of a call that succeeds when every allocation does. -/
def made (m : Heap (ℤ × RawValue)) : Option RawValue :=
  (m Oracle.always).bind fun r => if r.1.1 = 0 then some r.1.2 else none

mutual

/-- The value that is built, or `none` where a setter is given too few elements. -/
def Build.value : Build → Option RawValue
  | .str s => made (tsSetValueStr tsInitValue s)
  | .ints arr => made (tsSetValueiArr tsInitValue arr.length arr)
  | .floats arr => made (tsSetValuefArr tsInitValue arr.length arr)
  | .values elems => do
    let arr ← valuesOf elems
    made (tsSetValueArr tsInitValue arr.length arr)

/-- The values that an array is set from. -/
def valuesOf : List Build → Option (List RawValue)
  | [] => some []
  | b :: bs => do
    let v ← b.value
    let vs ← valuesOf bs
    return v :: vs

end

/-- The fields of a value are as the header says. -/
structure RawValue.StatedHere (v : RawValue) : Prop where
  /-- String values and numeric values have `str` set. -/
  str_set : v.type = .string ∨ v.type = .number → ∃ s, v.str = .own s
  /-- Vector values have `vec` set, with the numbers of the elements; its size is the same as
  `array_size`. -/
  vec_set : v.type = .vector → ∃ vec array, v.vec = .own vec ∧ v.array = .own array ∧
    v.vecSize = array.length ∧ v.arraySize = array.length ∧ vec = array.map RawValue.fnum
  /-- Array values have `array` set. -/
  array_set : v.type = .array → ∃ array, v.array = .own array ∧ v.arraySize = array.length

/-- A value is as the header says, and so are all its elements. -/
inductive RawValue.AsStated : RawValue → Prop
  | intro {v : RawValue} (here : v.StatedHere)
      (elems : ∀ array, v.array = .own array → ∀ e ∈ array, AsStated e) : AsStated v

/-- The value has what was set: the string, the number, the numbers of the vector or the elements
of the array, in order. -/
def Build.Holds (v : RawValue) : Build → Prop
  | .str s => v.type = .string ∧ v.str = .own s
  | .ints [n] => v.type = .number ∧ v.inum = n ∧ v.fnum = .ofInt n
  | .ints arr => v.type = .vector ∧ v.arraySize = arr.length ∧ v.vec = .own (arr.map .ofInt)
  | .floats [x] => v.type = .number ∧ v.inum = x.toInt ∧ v.fnum = x
  | .floats arr => v.type = .vector ∧ v.arraySize = arr.length ∧ v.vec = .own arr
  | .values elems => (v.type = .vector ∨ v.type = .array) ∧
    ∃ arr, valuesOf elems = some arr ∧ v.array = .own arr ∧ v.arraySize = elems.length

/-- One number was set. -/
def Build.isNumber : Build → Bool
  | .ints [_] => true
  | .floats [_] => true
  | _ => false

mutual

/-- Nowhere was an array set from numbers only. -/
def Build.Mixed : Build → Prop
  | .values elems => (∃ b ∈ elems, b.isNumber = false) ∧ AllMixed elems
  | _ => True

/-- The same for what an array is set from. -/
def AllMixed : List Build → Prop
  | [] => True
  | b :: bs => b.Mixed ∧ AllMixed bs

end

/-! ### The value of a build -/

/-- Induction on what a value is built from. -/
theorem Build.induct {P : Build → Prop} (str : ∀ s, P (.str s)) (ints : ∀ arr, P (.ints arr))
    (floats : ∀ arr, P (.floats arr))
    (values : ∀ elems : List Build, (∀ b ∈ elems, P b) → P (.values elems)) (b : Build) : P b :=
  @Build.rec P (fun bs => ∀ b ∈ bs, P b) str ints floats values (by simp)
    (fun _ _ hb hbs => List.forall_mem_cons.mpr ⟨hb, hbs⟩) b

theorem allMixed_iff {elems : List Build} : AllMixed elems ↔ ∀ b ∈ elems, b.Mixed := by
  induction elems with
  | nil => simp [AllMixed]
  | cons b bs ih => rw [AllMixed, ih, List.forall_mem_cons]

theorem valuesOf_eq_some_iff {elems : List Build} {arr : List RawValue} :
    valuesOf elems = some arr ↔ List.Forall₂ (fun b v => b.value = some v) elems arr := by
  induction elems generalizing arr with
  | nil =>
    rw [valuesOf, List.forall₂_nil_left_iff, Option.some.injEq]
    exact eq_comm
  | cons b bs ih =>
    rw [valuesOf, List.forall₂_cons_left_iff]
    constructor
    · intro h
      obtain ⟨v, hv, h⟩ := Option.bind_eq_some_iff.mp h
      obtain ⟨vs, hvs, h⟩ := Option.bind_eq_some_iff.mp h
      exact ⟨v, vs, hv, ih.mp hvs, (Option.some.inj h).symm⟩
    · rintro ⟨v, vs, hv, hvs, rfl⟩
      rw [hv, Option.bind_eq_bind, Option.bind_some, ih.mpr hvs]
      exact rfl

/-- The values that an array is set from are those of its elements. -/
theorem exists_of_valuesOf {elems : List Build} {arr : List RawValue}
    (h : valuesOf elems = some arr) :
    (∀ v ∈ arr, ∃ b ∈ elems, b.value = some v) ∧ ∀ b ∈ elems, ∃ v ∈ arr, b.value = some v := by
  have hall := valuesOf_eq_some_iff.mp h
  clear h
  induction hall with
  | nil => simp
  | @cons b v bs vs hb hbs ih =>
    refine ⟨fun w hw => ?_, fun c hc => ?_⟩
    · rcases List.mem_cons.mp hw with rfl | hw
      · exact ⟨b, List.mem_cons_self, hb⟩
      · obtain ⟨c, hc, hcw⟩ := ih.1 w hw
        exact ⟨c, List.mem_cons_of_mem _ hc, hcw⟩
    · rcases List.mem_cons.mp hc with rfl | hc
      · exact ⟨v, List.mem_cons_self, hb⟩
      · obtain ⟨w, hw, hcw⟩ := ih.2 c hc
        exact ⟨w, List.mem_cons_of_mem _ hw, hcw⟩

theorem made_of_gives {m : Heap (ℤ × RawValue)} {k : ℕ} {v : RawValue} (h : Gives m k (0, v)) :
    made m = some v := by
  rw [made, h.always]
  exact rfl

theorem made_pure_neg (v : RawValue) : made (pure (-1, v)) = none := rfl

theorem value_str (s : Bytes) : (Build.str s).value = some (tsInitValue.withStr s) := rfl

theorem value_ints_one (n : ℤ) : (Build.ints [n]).value =
    some (tsInitValue.withNumber intKind n) :=
  made_of_gives (gives_setNumber intKind _ n)

theorem value_floats_one (x : RawFloat) : (Build.floats [x]).value = some (elemOf x) :=
  made_of_gives (gives_setNumber floatKind _ x)

theorem made_setNumbers {α : Type} (K : NumKind α) {arr : List α} (h : 2 ≤ arr.length) :
    made (setNumbers K tsInitValue arr.length arr) =
      some (tsInitValue.withVector (arr.map K.toFloat) ((arr.map K.toFloat).map elemOf)) := by
  rw [setNumbers_of_two_le K (by omega) le_rfl, Int.toNat_natCast, List.take_length]
  exact made_of_gives (gives_setVector _)

theorem value_ints {arr : List ℤ} (h : 2 ≤ arr.length) : (Build.ints arr).value =
    some (tsInitValue.withVector (arr.map .ofInt) ((arr.map .ofInt).map elemOf)) :=
  made_setNumbers intKind h

theorem value_floats {arr : List RawFloat} (h : 2 ≤ arr.length) : (Build.floats arr).value =
    some (tsInitValue.withVector arr (arr.map elemOf)) := by
  have hvalue := made_setNumbers floatKind h
  rwa [show arr.map floatKind.toFloat = arr from List.map_id arr] at hvalue

theorem value_values {elems : List Build} {arr : List RawValue} (harr : valuesOf elems = some arr)
    (h : 2 ≤ arr.length) (hsound : ∀ v ∈ arr, v.Sound) :
    (Build.values elems).value = some (tsInitValue.withArray arr) := by
  rw [Build.value, harr, Option.bind_eq_bind, Option.bind_some]
  have hlen : (2 : ℤ) ≤ arr.length := by omega
  have hgives := gives_tsSetValueArr tsInitValue hlen le_rfl hsound
  rw [Int.toNat_natCast, List.take_length] at hgives
  exact made_of_gives hgives

/-- What a build can make: a string, a number, a vector with its size or an array of copies. -/
inductive Makes : Build → RawValue → Prop
  | str (s : Bytes) : Makes (.str s) (tsInitValue.withStr s)
  | int (n : ℤ) : Makes (.ints [n]) (tsInitValue.withNumber intKind n)
  | float (x : RawFloat) : Makes (.floats [x]) (elemOf x)
  | ints {arr : List ℤ} (h : 2 ≤ arr.length) :
      Makes (.ints arr) (tsInitValue.withVector (arr.map .ofInt) ((arr.map .ofInt).map elemOf))
  | floats {arr : List RawFloat} (h : 2 ≤ arr.length) :
      Makes (.floats arr) (tsInitValue.withVector arr (arr.map elemOf))
  | values {elems : List Build} {arr : List RawValue} (harr : valuesOf elems = some arr)
      (h : 2 ≤ arr.length) : Makes (.values elems) (tsInitValue.withArray arr)

theorem sound_elemOf (x : RawFloat) : (elemOf x).Sound :=
  .of_null (by simp [elemOf, RawValue.withNumber]) rfl rfl rfl

theorem sound_withVector (vec : List RawFloat) :
    (tsInitValue.withVector vec (vec.map elemOf)).Sound := by
  refine .of_own ?_ ?_ ?_ rfl (List.length_map _).symm fun e he => ?_
  · simp [RawValue.withVector, tsInitValue]
  · simp [RawValue.withVector]
  · simp [RawValue.withVector]
  · obtain ⟨x, -, rfl⟩ := List.mem_map.mp he
    exact sound_elemOf x

/-- A value that was built is sound, and it is one of those. -/
theorem makes_of_value {b : Build} : ∀ {v : RawValue}, b.value = some v → v.Sound ∧ Makes b v := by
  induction b using Build.induct with
  | str s =>
    intro v h
    obtain rfl := Option.some.inj ((value_str s).symm.trans h)
    exact ⟨.of_null (by simp [RawValue.withStr]) rfl rfl rfl, .str s⟩
  | ints arr =>
    intro v h
    rcases arr with _ | ⟨n, _ | ⟨m, arr⟩⟩
    · exact absurd h (by simp [Build.value, tsSetValueiArr, setNumbers_of_lt, made_pure_neg])
    · obtain rfl := Option.some.inj ((value_ints_one n).symm.trans h)
      exact ⟨.of_null (by simp [RawValue.withNumber]) rfl rfl rfl, .int n⟩
    · have h2 : 2 ≤ (n :: m :: arr).length := by simp
      obtain rfl := Option.some.inj ((value_ints h2).symm.trans h)
      exact ⟨sound_withVector _, .ints h2⟩
  | floats arr =>
    intro v h
    rcases arr with _ | ⟨x, _ | ⟨y, arr⟩⟩
    · exact absurd h (by simp [Build.value, tsSetValuefArr, setNumbers_of_lt, made_pure_neg])
    · obtain rfl := Option.some.inj ((value_floats_one x).symm.trans h)
      exact ⟨sound_elemOf x, .float x⟩
    · have h2 : 2 ≤ (x :: y :: arr).length := by simp
      obtain rfl := Option.some.inj ((value_floats h2).symm.trans h)
      exact ⟨sound_withVector _, .floats h2⟩
  | values elems ih =>
    intro v h
    have hvalue := h
    rw [Build.value] at h
    obtain ⟨arr, harr, h⟩ := Option.bind_eq_some_iff.mp h
    have hsound : ∀ e ∈ arr, e.Sound := by
      intro e he
      obtain ⟨b, hb, hbe⟩ := (exists_of_valuesOf harr).1 e he
      exact (ih b hb hbe).1
    rcases lt_or_ge arr.length 2 with hlt | hge
    · rw [tsSetValueArr_of_le arr (by omega), made_pure_neg] at h
      simp at h
    · obtain rfl := Option.some.inj ((value_values harr hge hsound).symm.trans hvalue)
      exact ⟨sound_withArray hsound, .values harr hge⟩

/-! ### Copies of copies -/

theorem keepVec_keepVec (vec : Ptr (List RawFloat)) (n : ℕ) :
    keepVec (keepVec vec n) n = keepVec vec n := by
  cases vec with
  | null => rfl
  | own vec =>
    rw [keepVec]
    split_ifs with h0
    · rfl
    · rw [keepVec, if_neg h0, List.take_take, min_self]
  | freed => rfl

/-- A copy has no more to lose. -/
theorem RawValue.Sound.dup_dup {v : RawValue} (h : v.Sound) : v.dup.dup = v.dup := by
  induction h with
  | @intro v fits _ ih =>
    have harray : keepArray (keepArray v.array v.arraySize) v.arraySize =
        keepArray v.array v.arraySize := by
      rcases harr : v.array with _ | elems | _
      · rfl
      · rw [fits.size_own elems harr, keepArray_own]
        split_ifs with h0
        · rfl
        · have hmap : (elems.map RawValue.dup).map RawValue.dup = elems.map RawValue.dup := by
            rw [List.map_map]
            exact List.map_congr_left (ih elems harr)
          have hkeep := keepArray_own (elems.map RawValue.dup)
          rw [List.length_map, hmap, if_neg (by simpa using h0)] at hkeep
          exact hkeep
      · rfl
    rw [dup_eq v.dup, dup_eq v]
    simp only [keepVec_keepVec, harray]

theorem dup_elemOf (x : RawFloat) : (elemOf x).dup = elemOf x := rfl

theorem array_dup_withArray {arr : List RawValue} (h : arr ≠ []) (hsound : ∀ v ∈ arr, v.Sound) :
    (tsInitValue.withArray arr).dup.array = .own (arr.map RawValue.dup) := by
  have hmap : (arr.map RawValue.dup).map RawValue.dup = arr.map RawValue.dup := by
    rw [List.map_map]
    exact List.map_congr_left fun v hv => (hsound v hv).dup_dup
  have hkeep := keepArray_own (arr.map RawValue.dup)
  rw [List.length_map, hmap, if_neg (by simpa using h)] at hkeep
  rw [dup_eq]
  exact hkeep

/-! ### When a value is as stated -/

theorem type_eq_number_iff {b : Build} {v : RawValue} (h : Makes b v) :
    v.type = .number ↔ b.isNumber = true := by
  cases h with
  | str s => simp [RawValue.withStr, Build.isNumber]
  | int n => simp [RawValue.withNumber, Build.isNumber]
  | float x => simp [elemOf, RawValue.withNumber, Build.isNumber]
  | @ints arr h =>
    rcases arr with _ | ⟨n, _ | ⟨m, arr⟩⟩ <;> simp [RawValue.withVector, Build.isNumber] at h ⊢
  | @floats arr h =>
    rcases arr with _ | ⟨n, _ | ⟨m, arr⟩⟩ <;> simp [RawValue.withVector, Build.isNumber] at h ⊢
  | @values elems arr harr h =>
    rw [RawValue.withArray]
    split_ifs <;> simp [Build.isNumber]

/-- An array is set from numbers only when one of each was set. -/
theorem allnum_iff {elems : List Build} {arr : List RawValue} (h : valuesOf elems = some arr) :
    allnum arr = true ↔ ∀ b ∈ elems, b.isNumber = true := by
  obtain ⟨hvalues, hbuilds⟩ := exists_of_valuesOf h
  simp only [allnum, List.all_eq_true, decide_eq_true_eq]
  constructor
  · intro hall b hb
    obtain ⟨v, hv, hbv⟩ := hbuilds b hb
    exact (type_eq_number_iff (makes_of_value hbv).2).mp (hall v hv)
  · intro hall v hv
    obtain ⟨b, hb, hbv⟩ := hvalues v hv
    exact (type_eq_number_iff (makes_of_value hbv).2).mpr (hall b hb)

/-- A value that is as stated, or of which a copy is, was built without an array of numbers only:
its size is not set, and that of the copy is not either. -/
theorem mixed_of_asStated {b : Build} :
    ∀ {v : RawValue}, b.value = some v → v.AsStated ∨ v.dup.AsStated → b.Mixed := by
  induction b using Build.induct with
  | str s => simp [Build.Mixed]
  | ints arr => simp [Build.Mixed]
  | floats arr => simp [Build.Mixed]
  | values elems ih =>
    intro v hvalue hstated
    obtain ⟨-, hmakes⟩ := makes_of_value hvalue
    cases hmakes with
    | @values _ arr harr h2 =>
      have hsound : ∀ e ∈ arr, e.Sound := by
        intro e he
        obtain ⟨b, -, hb⟩ := (exists_of_valuesOf harr).1 e he
        exact (makes_of_value hb).1
      have hne : arr ≠ [] := by
        rintro rfl
        simp at h2
      -- Either way it has the copies of the elements, and the size of the vector is zero.
      obtain ⟨w, hw, htype, hsize, harray⟩ : ∃ w : RawValue, w.AsStated ∧
          w.type = (tsInitValue.withArray arr).type ∧ w.vecSize = 0 ∧
          w.array = .own (arr.map RawValue.dup) := by
        rcases hstated with h | h
        · exact ⟨_, h, rfl, rfl, rfl⟩
        · exact ⟨_, h, by rw [dup_eq], by rw [dup_eq]; rfl, array_dup_withArray hne hsound⟩
      obtain ⟨here, helems⟩ := hw
      refine ⟨?_, allMixed_iff.mpr fun b hb => ?_⟩
      · by_contra hall
        have hnum : allnum arr = true := (allnum_iff harr).mpr fun b hb => by
          by_contra hb'
          exact hall ⟨b, hb, by simpa using hb'⟩
        rw [RawValue.withArray, if_pos hnum] at htype
        obtain ⟨vec, array, -, harray', hsize', -⟩ := here.vec_set htype
        obtain rfl := Ptr.own.inj (harray.symm.trans harray')
        rw [hsize, List.length_map] at hsize'
        omega
      · obtain ⟨e, he, hbe⟩ := (exists_of_valuesOf harr).2 b hb
        exact ih b hb hbe (.inr (helems _ harray _ (List.mem_map_of_mem he)))

theorem RawValue.AsStated.of_null {v : RawValue} (htype : v.type = .string ∨ v.type = .number)
    (hstr : ∃ s, v.str = .own s) (harray : v.array = .null) : v.AsStated := by
  refine .intro ⟨fun _ => hstr, fun h => ?_, fun h => ?_⟩ (by simp [harray])
  · exact absurd htype (by simp [h])
  · exact absurd htype (by simp [h])

theorem asStated_elemOf (x : RawFloat) : (elemOf x).AsStated :=
  .of_null (.inr rfl) ⟨_, rfl⟩ rfl

theorem asStated_withVector (vec : List RawFloat) :
    (tsInitValue.withVector vec (vec.map elemOf)).AsStated := by
  refine .intro ⟨?_, fun _ => ⟨vec, vec.map elemOf, rfl, rfl, ?_, ?_, ?_⟩, ?_⟩ ?_
  · simp [RawValue.withVector]
  · exact (List.length_map _).symm
  · exact (List.length_map _).symm
  · rw [List.map_map]
    exact (List.map_id vec).symm
  · simp [RawValue.withVector]
  · intro array harray e he
    obtain rfl := Ptr.own.inj harray
    obtain ⟨x, -, rfl⟩ := List.mem_map.mp he
    exact asStated_elemOf x

theorem dup_withVector {vec : List RawFloat} (h : 2 ≤ vec.length) :
    (tsInitValue.withVector vec (vec.map elemOf)).dup =
      tsInitValue.withVector vec (vec.map elemOf) := by
  have hne : vec.length ≠ 0 := by omega
  have hdups : dups (vec.map elemOf) vec.length = vec.map elemOf := by
    have hmap := dups_eq_map (vec.map elemOf)
    rw [List.length_map, List.map_map] at hmap
    rw [hmap]
    exact List.map_congr_left fun x _ => dup_elemOf x
  rw [dup_eq]
  simp only [RawValue.withVector, keepVec, keepArray, if_neg hne, List.take_length, hdups]

theorem length_of_valuesOf {elems : List Build} {arr : List RawValue}
    (h : valuesOf elems = some arr) : arr.length = elems.length :=
  (valuesOf_eq_some_iff.mp h).length_eq.symm

/-- A value that was built without an array of numbers only has what was set, and is as stated and
equal to its copies. -/
theorem asStated_of_mixed {b : Build} :
    ∀ {v : RawValue}, b.value = some v → b.Mixed → v.AsStated ∧ b.Holds v ∧ v.dup = v := by
  induction b using Build.induct with
  | str s =>
    intro v h _
    obtain rfl := Option.some.inj ((value_str s).symm.trans h)
    exact ⟨.of_null (.inl rfl) ⟨s, rfl⟩ rfl, ⟨rfl, rfl⟩, rfl⟩
  | ints arr =>
    intro v h _
    cases (makes_of_value h).2 with
    | int n => exact ⟨.of_null (.inr rfl) ⟨_, rfl⟩ rfl, ⟨rfl, rfl, rfl⟩, rfl⟩
    | ints h2 =>
      have hmap : 2 ≤ (arr.map RawFloat.ofInt).length := by rwa [List.length_map]
      refine ⟨asStated_withVector _, ?_, dup_withVector hmap⟩
      rcases arr with _ | ⟨n, _ | ⟨m, arr⟩⟩
      · simp at h2
      · simp at h2
      · exact ⟨rfl, List.length_map _, rfl⟩
  | floats arr =>
    intro v h _
    cases (makes_of_value h).2 with
    | float x => exact ⟨asStated_elemOf x, ⟨rfl, rfl, rfl⟩, rfl⟩
    | floats h2 =>
      refine ⟨asStated_withVector _, ?_, dup_withVector h2⟩
      rcases arr with _ | ⟨x, _ | ⟨y, arr⟩⟩
      · simp at h2
      · simp at h2
      · exact ⟨rfl, rfl, rfl⟩
  | values elems ih =>
    intro v h hmixed
    obtain ⟨hsome, hall⟩ := hmixed
    cases (makes_of_value h).2 with
    | @values _ arr harr h2 =>
      have hfalse : allnum arr = false := by
        rw [← Bool.not_eq_true, allnum_iff harr]
        obtain ⟨b, hb, hnum⟩ := hsome
        exact fun hnums => Bool.false_ne_true (hnum.symm.trans (hnums b hb))
      have helems : ∀ e ∈ arr, e.AsStated ∧ e.dup = e := by
        intro e he
        obtain ⟨b, hb, hbe⟩ := (exists_of_valuesOf harr).1 e he
        obtain ⟨hstated, -, hdup⟩ := ih b hb hbe (allMixed_iff.mp hall b hb)
        exact ⟨hstated, hdup⟩
      have hdup : arr.map RawValue.dup = arr :=
        (List.map_congr_left fun e he => (helems e he).2).trans (List.map_id' arr)
      have hv : tsInitValue.withArray arr = { tsInitValue with
          type := .array, array := .own arr, arraySize := arr.length } := by
        rw [RawValue.withArray, hfalse, hdup]
        exact rfl
      have hne : arr ≠ [] := by
        rintro rfl
        simp at h2
      rw [hv]
      refine ⟨.intro ⟨?_, ?_, fun _ => ⟨arr, rfl, rfl⟩⟩ ?_, ?_, ?_⟩
      · simp
      · simp
      · intro array harray e he
        obtain rfl := Ptr.own.inj harray
        exact (helems e he).1
      · exact ⟨.inr rfl, arr, harr, rfl, length_of_valuesOf harr⟩
      · rw [dup_eq]
        show { tsInitValue with
          type := .array, array := keepArray (.own arr) arr.length, arraySize := arr.length } = _
        rw [keepArray_own, if_neg hne, hdup]

/-- **When a value that was built is as the header says**: it has what was set, its elements in
order, the sizes of its vector and its array agree, and its copies are equal to it. That is so
exactly when no array in it was set from numbers only. -/
theorem asStated_iff (b : Build) (v : RawValue) (h : b.value = some v) :
    (v.AsStated ∧ b.Holds v ∧
      tsCopyValue v Oracle.always = some ((0, v), Oracle.always)) ↔ b.Mixed := by
  obtain ⟨hsound, -⟩ := makes_of_value h
  constructor
  · rintro ⟨hstated, -⟩
    exact mixed_of_asStated h (.inl hstated)
  · intro hmixed
    obtain ⟨hstated, hholds, hdup⟩ := asStated_of_mixed h hmixed
    have hcopy := (gives_tsCopyValue hsound).always
    rw [hdup] at hcopy
    exact ⟨hstated, hholds, hcopy⟩

theorem value_pair {b c : Build} {v w : RawValue} (hb : b.value = some v) (hc : c.value = some w) :
    (Build.values [b, c]).value = some (tsInitValue.withArray [v, w]) := by
  refine value_values ?_ (le_refl 2) fun e he => ?_
  · rw [valuesOf_eq_some_iff]
    exact .cons hb (.cons hc .nil)
  · rcases List.mem_pair.mp he with rfl | rfl
    · exact (makes_of_value hb).1
    · exact (makes_of_value hc).1

/-- A string and a number. -/
def strAndNumber : RawValue :=
  tsInitValue.withArray [tsInitValue.withStr [97], tsInitValue.withNumber intKind 5]

theorem asStated_iff_strAndNumber :
    (strAndNumber.AsStated ∧ (Build.values [.str [97], .ints [5]]).Holds strAndNumber ∧
      tsCopyValue strAndNumber Oracle.always = some ((0, strAndNumber), Oracle.always)) ↔
      (Build.values [.str [97], .ints [5]]).Mixed :=
  asStated_iff _ _ (value_pair (value_str [97]) (value_ints_one 5))

/-- An array that is set from the numbers 1 and 2 is not as stated, and its copy has no vector. -/
theorem not_asStated : ∃ v w, (Build.values [.ints [1], .ints [2]]).value = some v ∧
    ¬ v.AsStated ∧ tsCopyValue v Oracle.always = some ((0, w), Oracle.always) ∧
    v.vec.isSet = true ∧ w.vec.isSet = false := by
  have hvalue := value_pair (value_ints_one 1) (value_ints_one 2)
  refine ⟨_, _, hvalue, fun h => ?_, (gives_tsCopyValue (makes_of_value hvalue).1).always, ?_, ?_⟩
  · have hmixed := mixed_of_asStated hvalue (.inl h)
    simp [Build.Mixed, Build.isNumber] at hmixed
  · exact rfl
  · rw [dup_eq]
    exact rfl

end Visftp.Raw
