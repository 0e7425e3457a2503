import Visftp.RawSetters

/-!
# The setters beside each other

Two laws that the setters of `treestor.c` might be expected to have. The variadic setters are to do
what the array setters do: those with numbers do, up to the result when a number's text is not
there, but `ts_set_valuev` never says what kind of value it made. And the last setter that was
called is to be all that can be seen of a value; but most of the setters leave something of the old
value in the pointers that the getters look at.

## Main definitions

* `tsSetValuev`, `tsSetValueiv`, `tsSetValuefv` — the variadic setters
* `tsGetAttrStr`, `tsGetAttrNum`, `tsGetAttrInt`, `tsGetAttrVec`, `tsGetAttrArray` — the getters
* `SetCall`, `Sets` — calls of the setters, one after the other
* `SetCall.Clears` — the old value has nothing that would be seen after the call

## Main results

* `outcome_variadic_iff` — when the variadic setters agree with the array setters
* `seen_last_iff` — when only the last call can be seen
-/

namespace Visftp.Raw

open Alloc

/-! ### Variadic setters -/

/-- `ts_set_valuev`, through `ts_set_valuev_va`. -/
def tsSetValuev (tsv : RawValue) (count : ℤ) (args : List RawValue) : Heap (ℤ × RawValue) :=
  if count ≤ 1 then pure (-1, tsv)
  else do
    let args ← readArgs count args
    if ← malloc then
      match ← copyArgs [] args with
      | none => pure (-1, { tsv with array := .null, arraySize := count.toNat })
      | some elems => pure (0, { tsv with array := .own elems, arraySize := count.toNat })
    else pure (-1, { tsv with array := .null })

/-- A variadic setter with numbers. What comes of a single number is not looked at. -/
def setVariadic {α : Type} (K : NumKind α) (tsv : RawValue) (count : ℤ) (args : List α) :
    Heap (ℤ × RawValue) :=
  if count < 1 then pure (-1, tsv)
  else do
    match ← readArgs count args with
    | [num] =>
      let (_, tsv) ← setNumber K tsv num
      pure (0, tsv)
    | vec => setNumbers K tsv count vec

/-- `ts_set_valueiv`, through `ts_set_valueiv_va`. -/
def tsSetValueiv (tsv : RawValue) (count : ℤ) (args : List ℤ) : Heap (ℤ × RawValue) :=
  setVariadic intKind tsv count args

/-- `ts_set_valuefv`, through `ts_set_valuefv_va`. The arguments are of type `double`. -/
def tsSetValuefv (tsv : RawValue) (count : ℤ) (args : List RawFloat) : Heap (ℤ × RawValue) :=
  setVariadic floatKind tsv count (args.map RawFloat.toFloat)

/-- What a call returns, and the value it leaves. -/
def outcome (m : Heap (ℤ × RawValue)) (o : Oracle) : Option (ℤ × RawValue) := (m o).map Prod.fst

variable {tsv : RawValue} {count : ℤ} {o : Oracle}

theorem type_of_setKind {all : Bool} {elems : List RawValue} {w : RawValue} {o' : Oracle}
    (h : setKind tsv all elems o = some ((0, w), o')) : w.type ≠ .string := by
  rw [setKind] at h
  split_ifs at h with hall
  · rw [bind_of_eq (malloc_apply o)] at h
    split_ifs at h with h0
    · obtain ⟨⟨-, rfl⟩, -⟩ := by simpa using h
      simp
    · obtain ⟨dead, o₁, -, h⟩ := bind_eq_some_iff.mp h
      have hres := congrArg (fun r => r.1.1) (Option.some.inj h)
      exact absurd hres (by simp)
  · obtain ⟨⟨-, rfl⟩, -⟩ := by simpa using h
    simp

/-- Once the arguments are copied, only `ts_set_value_arr` sets the type. -/
theorem outcome_tsSetValuev_iff {args : List RawValue} (hlen : count ≤ args.length)
    (h : ∀ v ∈ args, v.Sound) :
    outcome (tsSetValuev tsInitValue count args) o =
        outcome (tsSetValueArr tsInitValue count args) o ↔
      count ≤ 1 ∨ ¬ o.Grants (1 + argsAllocs (args.take count.toNat)) := by
  rcases le_or_gt count 1 with hle | hgt
  · rw [tsSetValuev, if_pos hle, tsSetValueArr_of_le args hle]
    exact iff_of_true rfl (.inl hle)
  have hsound : ∀ v ∈ args.take count.toNat, v.Sound := fun v hv => h v (List.mem_of_mem_take hv)
  rw [tsSetValuev, tsSetValueArr, if_neg (by omega), if_neg (by omega), readArgs_of_le hlen,
    pure_bind, pure_bind, outcome, outcome, bind_of_eq (malloc_apply o),
    bind_of_eq (malloc_apply o), Oracle.grants_add, Oracle.grants_one]
  rcases Bool.eq_false_or_eq_true (o 0) with h0 | h0
  swap
  · rw [h0]
    exact iff_of_true rfl (.inr (by simp))
  rw [h0, if_pos rfl, if_pos rfl]
  by_cases hargs : (o.after 1).Grants (argsAllocs (args.take count.toNat))
  · refine iff_of_false ?_ (by simp [hargs, hgt])
    have hcopies := gives_copyArgs hsound [] _ hargs
    rw [bind_of_eq hcopies, bind_of_eq hcopies]
    intro heq
    obtain ⟨⟨r, o'⟩, hkind, hr⟩ := Option.map_eq_some_iff.mp heq.symm
    obtain rfl : r = _ := hr
    exact type_of_setKind hkind rfl
  · refine iff_of_true ?_ (.inr (by simp [hargs]))
    rw [bind_apply, bind_apply]
    rcases hcopies : copyArgs [] (args.take count.toNat) (o.after 1) with _ | ⟨res, o'⟩
    · rfl
    · obtain rfl : res = none := copyArgs_refused hsound hargs hcopies
      rfl

/-- A single number is the one case in which the result of the array setter is not passed on. -/
theorem outcome_number_iff {α : Type} (K : NumKind α) (x : α) :
    outcome (do
      let (_, tsv) ← setNumber K tsInitValue x
      pure (0, tsv)) o = outcome (setNumber K tsInitValue x) o ↔ o 0 = true := by
  rcases Bool.eq_false_or_eq_true (o 0) with h0 | h0
  · have hset := gives_setNumber K tsInitValue x o (Oracle.grants_one.mpr h0)
    rw [outcome, bind_of_eq hset, outcome, hset]
    exact iff_of_true rfl h0
  · have hset := setNumber_of_false K tsInitValue x h0
    rw [outcome, bind_of_eq hset, outcome, hset]
    refine iff_of_false (fun heq => ?_) (by simp [h0])
    have hres := congrArg Prod.fst (Option.some.inj heq)
    exact absurd hres (by simp)

theorem outcome_setVariadic_iff {α : Type} (K : NumKind α) {args : List α}
    (hlen : count ≤ args.length) : outcome (setVariadic K tsInitValue count args) o =
      outcome (setNumbers K tsInitValue count args) o ↔ count ≠ 1 ∨ o 0 = true := by
  rcases lt_trichotomy count 1 with hlt | rfl | hgt
  · rw [setVariadic, if_pos hlt, setNumbers_of_lt K args hlt]
    exact iff_of_true rfl (.inl hlt.ne)
  · cases args with
    | nil => simp at hlen
    | cons num args =>
      rw [setNumbers_one, setVariadic, if_neg (lt_irrefl 1), readArgs_of_le hlen, pure_bind]
      exact (outcome_number_iff K num).trans (by simp)
  · refine iff_of_true ?_ (.inl hgt.ne')
    obtain ⟨x, y, rest, hargs⟩ := exists_of_two_le hgt hlen
    have hread : count ≤ (x :: y :: rest).length := by
      rw [← hargs, length_take_toNat hlen]
      omega
    rw [setNumbers_of_two_le K hgt hlen, setVariadic, if_neg (by omega), readArgs_of_le hlen,
      pure_bind, hargs]
    show outcome (setNumbers K tsInitValue count (x :: y :: rest)) o = _
    rw [setNumbers_of_two_le K hgt hread, ← hargs, List.take_take, min_self]

theorem outcome_tsSetValuefv_iff {args : List RawFloat} (hlen : count ≤ args.length) :
    outcome (tsSetValuefv tsInitValue count args) o =
        outcome (tsSetValuefArr tsInitValue count (args.map RawFloat.toFloat)) o ↔
      count ≠ 1 ∨ o 0 = true :=
  outcome_setVariadic_iff floatKind (by rwa [List.length_map])

/-- **When the variadic setters agree with the array setters**: `ts_set_valuev` only where both of
them fail, the other two except that one number is reported as set when there is no storage for its
text. -/
theorem outcome_variadic_iff (count : ℤ) (o : Oracle) :
    (∀ args : List RawValue, count ≤ args.length → (∀ v ∈ args, v.Sound) →
      (outcome (tsSetValuev tsInitValue count args) o =
          outcome (tsSetValueArr tsInitValue count args) o ↔
        count ≤ 1 ∨ ¬ o.Grants (1 + argsAllocs (args.take count.toNat)))) ∧
    (∀ args : List ℤ, count ≤ args.length → (outcome (tsSetValueiv tsInitValue count args) o =
      outcome (tsSetValueiArr tsInitValue count args) o ↔ count ≠ 1 ∨ o 0 = true)) ∧
    ∀ args : List RawFloat, count ≤ args.length →
      (outcome (tsSetValuefv tsInitValue count args) o =
          outcome (tsSetValuefArr tsInitValue count (args.map RawFloat.toFloat)) o ↔
        count ≠ 1 ∨ o 0 = true) :=
  ⟨fun _ hlen h => outcome_tsSetValuev_iff hlen h, fun _ => outcome_setVariadic_iff intKind,
    fun _ => outcome_tsSetValuefv_iff⟩

/-- A number and a string, made by the setters. -/
def numberAndString : List RawValue :=
  [tsInitValue.withNumber intKind 1, { tsInitValue with str := .own [97] }]

theorem sound_numberAndString : ∀ v ∈ numberAndString, v.Sound := by
  intro v hv
  rcases List.mem_pair.mp hv with rfl | rfl
  · exact .of_null (by simp [RawValue.withNumber]) rfl rfl rfl
  · exact .of_null (by simp) rfl rfl rfl

/-- A number and a string, and one number of each kind, with and without storage. -/
theorem outcome_variadic_iff_one :
    (outcome (tsSetValuev tsInitValue 2 numberAndString) Oracle.always =
        outcome (tsSetValueArr tsInitValue 2 numberAndString) Oracle.always ↔
      (2 : ℤ) ≤ 1 ∨ ¬ Oracle.always.Grants (1 + argsAllocs (numberAndString.take 2))) ∧
    (outcome (tsSetValueiv tsInitValue 1 [5]) Oracle.always =
        outcome (tsSetValueiArr tsInitValue 1 [5]) Oracle.always ↔
      (1 : ℤ) ≠ 1 ∨ Oracle.always 0 = true) ∧
    (outcome (tsSetValuefv tsInitValue 1 [.nan true]) (fun _ => false) =
        outcome (tsSetValuefArr tsInitValue 1 [.nan true]) (fun _ => false) ↔
      (1 : ℤ) ≠ 1 ∨ false = true) :=
  ⟨(outcome_variadic_iff 2 Oracle.always).1 numberAndString (by decide) sound_numberAndString,
    (outcome_variadic_iff 1 Oracle.always).2.1 [5] (by decide),
    (outcome_variadic_iff 1 fun _ => false).2.2 [.nan true] (by decide)⟩

/-- An array of a number and a string, made by `ts_set_valuev`, is not said to be one. -/
theorem not_outcome_variadic :
    outcome (tsSetValuev tsInitValue 2 numberAndString) Oracle.always ≠
      outcome (tsSetValueArr tsInitValue 2 numberAndString) Oracle.always := by
  intro heq
  have hcond := (outcome_tsSetValuev_iff (by decide) sound_numberAndString).mp heq
  exact absurd hcond (by decide)

/-! ### Getters -/

/-- `struct ts_attr` -/
structure RawAttr where
  name : Bytes
  val : RawValue

/-- `ts_get_attr`, in the attributes of a node. -/
def tsGetAttr (attrs : List RawAttr) (name : Bytes) : Option RawAttr :=
  attrs.find? (·.name = name)

/-- A pointer, or another one where it is null. -/
def orElse {α : Type} : Ptr α → Ptr α → Ptr α
  | .null, defVal => defVal
  | ptr, _ => ptr

/-- `ts_get_attr_str` -/
def tsGetAttrStr (attrs : List RawAttr) (aname : Bytes) (defVal : Ptr Bytes) : Ptr Bytes :=
  match tsGetAttr attrs aname with
  | none => defVal
  | some attr => orElse attr.val.str defVal

/-- `ts_get_attr_num` -/
def tsGetAttrNum (attrs : List RawAttr) (aname : Bytes) (defVal : RawFloat) : RawFloat :=
  match tsGetAttr attrs aname with
  | none => defVal
  | some attr => if attr.val.type ≠ .number then defVal else attr.val.fnum

/-- `ts_get_attr_int` -/
def tsGetAttrInt (attrs : List RawAttr) (aname : Bytes) (defVal : ℤ) : ℤ :=
  match tsGetAttr attrs aname with
  | none => defVal
  | some attr => if attr.val.type ≠ .number then defVal else attr.val.inum

/-- `ts_get_attr_vec` -/
def tsGetAttrVec (attrs : List RawAttr) (aname : Bytes) (defVal : Ptr (List RawFloat)) :
    Ptr (List RawFloat) :=
  match tsGetAttr attrs aname with
  | none => defVal
  | some attr => orElse attr.val.vec defVal

/-- `ts_get_attr_array` -/
def tsGetAttrArray (attrs : List RawAttr) (aname : Bytes) (defVal : Ptr (List RawValue)) :
    Ptr (List RawValue) :=
  match tsGetAttr attrs aname with
  | none => defVal
  | some attr => orElse attr.val.array defVal

/-- The attributes of a node with a value among them, which is the first of its name. -/
def attrsWith (before after : List RawAttr) (name : Bytes) (v : RawValue) : List RawAttr :=
  before ++ ⟨name, v⟩ :: after

theorem tsGetAttr_attrsWith {before : List RawAttr} (after : List RawAttr) {name : Bytes}
    (v : RawValue) (h : ∀ attr ∈ before, attr.name ≠ name) :
    tsGetAttr (attrsWith before after name v) name = some ⟨name, v⟩ := by
  rw [tsGetAttr, attrsWith, List.find?_append, List.find?_eq_none.mpr (by simpa using h)]
  simp

/-- Two values of one attribute give the same to every getter, in every node and with every
default. -/
def SeenAs (v w : RawValue) : Prop :=
  ∀ (before after : List RawAttr) (name : Bytes), (∀ attr ∈ before, attr.name ≠ name) →
    (∀ d, tsGetAttrStr (attrsWith before after name v) name d =
      tsGetAttrStr (attrsWith before after name w) name d) ∧
    (∀ d, tsGetAttrNum (attrsWith before after name v) name d =
      tsGetAttrNum (attrsWith before after name w) name d) ∧
    (∀ d, tsGetAttrInt (attrsWith before after name v) name d =
      tsGetAttrInt (attrsWith before after name w) name d) ∧
    (∀ d, tsGetAttrVec (attrsWith before after name v) name d =
      tsGetAttrVec (attrsWith before after name w) name d) ∧
    ∀ d, tsGetAttrArray (attrsWith before after name v) name d =
      tsGetAttrArray (attrsWith before after name w) name d

theorem orElse_null {α : Type} (ptr : Ptr α) : orElse ptr .null = ptr := by
  cases ptr <;> rfl

/-- Values of the same type, with the same numbers if that is what they are, are told apart by their
pointers. -/
theorem seenAs_iff {v w : RawValue} (htype : v.type = w.type)
    (hnum : v.type = .number → v.fnum = w.fnum ∧ v.inum = w.inum) :
    SeenAs v w ↔ v.str = w.str ∧ v.vec = w.vec ∧ v.array = w.array := by
  constructor
  · intro h
    have hnone : ∀ attr ∈ ([] : List RawAttr), attr.name ≠ [] := by simp
    obtain ⟨hstr, -, -, hvec, harray⟩ := h [] [] [] hnone
    have hstr := hstr .null
    have hvec := hvec .null
    have harray := harray .null
    simp only [tsGetAttrStr, tsGetAttrVec, tsGetAttrArray, orElse_null,
      tsGetAttr_attrsWith [] _ hnone] at hstr hvec harray
    exact ⟨hstr, hvec, harray⟩
  · rintro ⟨hstr, hvec, harray⟩ before after name h
    simp only [tsGetAttrStr, tsGetAttrNum, tsGetAttrInt, tsGetAttrVec, tsGetAttrArray,
      tsGetAttr_attrsWith after _ h, hstr, hvec, harray, ← htype, implies_true, true_and, and_true]
    by_cases htyp : v.type = .number
    · obtain ⟨hfnum, hinum⟩ := hnum htyp
      simp only [hfnum, hinum, implies_true, and_self]
    · simp [htyp]

/-! ### One call after the other -/

/-- A call of a setter. -/
inductive SetCall
  | str (s : Bytes)
  | ints (count : ℤ) (arr : List ℤ)
  | floats (count : ℤ) (arr : List RawFloat)
  | values (count : ℤ) (arr : List RawValue)

/-- What the call does. -/
def SetCall.run (tsv : RawValue) : SetCall → Heap (ℤ × RawValue)
  | .str s => tsSetValueStr tsv s
  | .ints count arr => tsSetValueiArr tsv count arr
  | .floats count arr => tsSetValuefArr tsv count arr
  | .values count arr => tsSetValueArr tsv count arr

/-- Successful calls on a fresh value, one after the other: the value they leave and the oracle. -/
inductive Sets (o : Oracle) : List SetCall → RawValue → Oracle → Prop
  | init : Sets o [] tsInitValue o
  | call {calls : List SetCall} {v w : RawValue} {o₁ o₂ : Oracle} {c : SetCall}
      (before : Sets o calls v o₁) (h : c.run v o₁ = some ((0, w), o₂)) :
      Sets o (calls ++ [c]) w o₂

/-- Which pointers of a value are set. -/
structure Shape where
  str : Bool
  vec : Bool
  array : Bool
  deriving DecidableEq

/-- The pointers of a value. -/
def RawValue.shape (v : RawValue) : Shape := ⟨v.str.isSet, v.vec.isSet, v.array.isSet⟩

/-- Which pointers are set after a call. Only a string clears a value, and only one that had a
string before. -/
def SetCall.shape (s : Shape) : SetCall → Shape
  | .str _ => ⟨true, !s.str && s.vec, !s.str && s.array⟩
  | .ints count _ => if count = 1 then { s with str := true } else ⟨s.str, true, true⟩
  | .floats count _ => if count = 1 then { s with str := true } else ⟨s.str, true, true⟩
  | .values count arr => ⟨s.str, allnum (arr.take count.toNat) || s.vec, true⟩

/-- Which pointers are set after all the calls. -/
def shapeAfter (calls : List SetCall) : Shape := calls.foldl SetCall.shape ⟨false, false, false⟩

/-- No pointer is set that would be seen after the call although it is not one of the call's. -/
def SetCall.Clears (s : Shape) : SetCall → Prop
  | .str _ => s.str = true ∨ s.vec = false ∧ s.array = false
  | .ints count _ => if count = 1 then s.vec = false ∧ s.array = false else s.str = false
  | .floats count _ => if count = 1 then s.vec = false ∧ s.array = false else s.str = false
  | .values count arr => s.str = false ∧ (allnum (arr.take count.toNat) = true ∨ s.vec = false)

theorem seenAs_withNumber_iff {α : Type} (K : NumKind α) {v : RawValue} (x : α) :
    SeenAs (v.withNumber K x) (tsInitValue.withNumber K x) ↔ v.vec = .null ∧ v.array = .null := by
  rw [seenAs_iff (v := v.withNumber K x) (w := tsInitValue.withNumber K x) rfl fun _ => ⟨rfl, rfl⟩]
  simp [RawValue.withNumber, tsInitValue]

/-- A setter that does the same with every value that it is given. -/
theorem exists_of_setNumber {α : Type} {K : NumKind α} {x : α} {v w : RawValue} {o' : Oracle}
    (h : setNumber K v x o = some ((0, w), o')) : w = v.withNumber K x ∧
      setNumber K tsInitValue x o = some ((0, tsInitValue.withNumber K x), o') := by
  rw [setNumber, bind_of_eq (malloc_apply o)] at h ⊢
  split_ifs at h ⊢ with h0
  · obtain ⟨⟨-, rfl⟩, rfl⟩ := by simpa using h
    exact ⟨rfl, rfl⟩
  · exact absurd (congrArg (fun r => r.1.1) (Option.some.inj h)) (by simp)

theorem exists_of_setVector {vec : List RawFloat} {v w : RawValue} {o' : Oracle}
    (h : setVector v vec o = some ((0, w), o')) : ∃ elems, w = v.withVector vec elems ∧
      setVector tsInitValue vec o = some ((0, tsInitValue.withVector vec elems), o') := by
  rw [setVector, bind_of_eq (malloc_apply o)] at h
  rw [setVector, bind_of_eq (malloc_apply o)]
  split_ifs at h ⊢ with h0
  · rw [bind_of_eq (malloc_apply _)] at h ⊢
    split_ifs at h ⊢ with h1
    · obtain ⟨elems, o₁, helems, h⟩ := bind_eq_some_iff.mp h
      obtain ⟨⟨-, rfl⟩, rfl⟩ := by simpa [pure_apply] using h
      exact ⟨elems, rfl, bind_of_eq helems _⟩
    · exact absurd h (by simp [undefined])
  · exact absurd (congrArg (fun r => r.1.1) (Option.some.inj h)) (by simp)

theorem seenAs_withVector_iff {v : RawValue} (vec : List RawFloat) (elems : List RawValue) :
    SeenAs (v.withVector vec elems) (tsInitValue.withVector vec elems) ↔ v.str = .null := by
  rw [seenAs_iff (v := v.withVector vec elems) (w := tsInitValue.withVector vec elems) rfl
    (by simp [RawValue.withVector])]
  simp [RawValue.withVector, tsInitValue]

/-- A value with an array, and with a vector if that is one of numbers. -/
def RawValue.withElems (tsv : RawValue) (all : Bool) (elems : List RawValue) (n : ℕ) : RawValue :=
  { tsv with
    type := if all then .vector else .array
    vec := if all then .own (elems.map RawValue.fnum) else tsv.vec
    array := .own elems
    arraySize := n }

theorem exists_of_setKind {all : Bool} {elems : List RawValue} {n : ℕ} {v w : RawValue}
    {o' : Oracle} (h : setKind { v with array := .own elems, arraySize := n } all elems o =
      some ((0, w), o')) : w = v.withElems all elems n ∧
      setKind { tsInitValue with array := .own elems, arraySize := n } all elems o =
        some ((0, tsInitValue.withElems all elems n), o') := by
  rw [setKind] at h ⊢
  split_ifs at h ⊢ with hall
  · rw [bind_of_eq (malloc_apply o)] at h ⊢
    split_ifs at h ⊢ with h0
    · obtain ⟨⟨-, rfl⟩, rfl⟩ := by simpa [pure_apply] using h
      simp [RawValue.withElems, hall, pure_apply]
    · obtain ⟨dead, o₁, -, h⟩ := bind_eq_some_iff.mp h
      exact absurd (congrArg (fun r => r.1.1) (Option.some.inj h)) (by simp)
  · obtain ⟨⟨-, rfl⟩, rfl⟩ := by simpa [pure_apply] using h
    simp [RawValue.withElems, hall, pure_apply]

theorem exists_of_tsSetValueArr {count : ℤ} {arr : List RawValue} {v w : RawValue} {o' : Oracle}
    (h : tsSetValueArr v count arr o = some ((0, w), o')) : ∃ elems,
      w = v.withElems (allnum (arr.take count.toNat)) elems count.toNat ∧
      tsSetValueArr tsInitValue count arr o = some ((0, tsInitValue.withElems
        (allnum (arr.take count.toNat)) elems count.toNat), o') := by
  rw [tsSetValueArr] at h ⊢
  split_ifs at h ⊢ with hcount
  · exact absurd (congrArg (fun r => r.1.1) (Option.some.inj h)) (by simp)
  obtain ⟨args, o₁, hread, h⟩ := bind_eq_some_iff.mp h
  have hargs : args = arr.take count.toNat := by
    rw [readArgs] at hread
    split_ifs at hread
    · simp [undefined] at hread
    · exact (congrArg Prod.fst (Option.some.inj hread)).symm
  rw [bind_of_eq hread, bind_of_eq (malloc_apply o₁)]
  rw [bind_of_eq (malloc_apply o₁)] at h
  split_ifs at h ⊢ with h0
  · obtain ⟨copies, o₂, hcopies, h⟩ := bind_eq_some_iff.mp h
    rw [bind_of_eq hcopies]
    cases copies with
    | none => exact absurd (congrArg (fun r => r.1.1) (Option.some.inj h)) (by simp)
    | some elems =>
      subst hargs
      exact ⟨elems, exists_of_setKind h⟩
  · exact absurd (congrArg (fun r => r.1.1) (Option.some.inj h)) (by simp)

theorem seenAs_withElems_iff {v : RawValue} (all : Bool) (elems : List RawValue) (n : ℕ) :
    SeenAs (v.withElems all elems n) (tsInitValue.withElems all elems n) ↔
      v.str = .null ∧ (all = true ∨ v.vec = .null) := by
  rw [seenAs_iff (v := v.withElems all elems n) (w := tsInitValue.withElems all elems n) rfl ?_]
  · cases all <;> simp [RawValue.withElems, tsInitValue]
  · cases all <;> simp [RawValue.withElems]

/-- What a setter with numbers leaves: one number, or a vector with its elements. -/
def Numbers {α : Type} (K : NumKind α) (count : ℤ) (set : RawValue → Heap (ℤ × RawValue))
    (v w : RawValue) (o o' : Oracle) : Prop :=
  (count = 1 ∧ ∃ x, w = v.withNumber K x ∧
    set tsInitValue o = some ((0, tsInitValue.withNumber K x), o')) ∨
  count ≠ 1 ∧ ∃ vec elems, w = v.withVector vec elems ∧
    set tsInitValue o = some ((0, tsInitValue.withVector vec elems), o')

theorem le_length_of_readArgs {α β : Type} {count : ℤ} {arr : List α} {f : List α → Heap β}
    {r : β × Oracle} (h : (readArgs count arr >>= f) o = some r) : count ≤ arr.length := by
  by_contra hlen
  rw [readArgs, if_pos (not_le.mp hlen)] at h
  exact absurd h (by simp [bind_apply, undefined])

theorem numbers_of_setNumbers {α : Type} (K : NumKind α) {count : ℤ} {arr : List α}
    {v w : RawValue} {o' : Oracle} (h : setNumbers K v count arr o = some ((0, w), o')) :
    Numbers K count (setNumbers K · count arr) v w o o' := by
  have hlen : ¬ count < 1 → count ≤ arr.length := fun hcount => by
    rw [setNumbers, if_neg hcount] at h
    exact le_length_of_readArgs h
  rcases lt_trichotomy count 1 with hlt | rfl | hgt
  · rw [setNumbers_of_lt K arr hlt] at h
    exact absurd (congrArg (fun r => r.1.1) (Option.some.inj h)) (by simp)
  · have hlen := hlen (lt_irrefl 1)
    cases arr with
    | nil => simp at hlen
    | cons x arr =>
      rw [setNumbers_one] at h
      obtain ⟨hw, hinit⟩ := exists_of_setNumber h
      refine .inl ⟨rfl, x, hw, ?_⟩
      show setNumbers K tsInitValue 1 (x :: arr) o = _
      rw [setNumbers_one, hinit]
  · have hlen := hlen (by omega)
    rw [setNumbers_of_two_le K hgt hlen] at h
    obtain ⟨elems, hw, hinit⟩ := exists_of_setVector h
    refine .inr ⟨hgt.ne', _, _, hw, ?_⟩
    show setNumbers K tsInitValue count arr o = _
    rw [setNumbers_of_two_le K hgt hlen, hinit]

/-- A value that was set to a string. -/
def RawValue.withStr (tsv : RawValue) (s : Bytes) : RawValue :=
  { tsv with type := .string, str := .own s }

theorem seenAs_withStr_iff {v : RawValue} (s : Bytes) :
    SeenAs (v.withStr s) (tsInitValue.withStr s) ↔ v.vec = .null ∧ v.array = .null := by
  rw [seenAs_iff (v := v.withStr s) (w := tsInitValue.withStr s) rfl (by simp [RawValue.withStr])]
  simp [RawValue.withStr, tsInitValue]

theorem exists_of_tsSetValueStr {s : Bytes} {v w : RawValue} {o' : Oracle}
    (h : tsSetValueStr v s o = some ((0, w), o')) :
    w = (if v.str = .null then v else tsInitValue).withStr s ∧
      tsSetValueStr tsInitValue s o = some ((0, tsInitValue.withStr s), o') := by
  obtain ⟨cleared, o₁, hclear, h⟩ := bind_eq_some_iff.mp h
  obtain ⟨hclear, rfl : o = o₁⟩ := check_eq_some_iff.mp hclear
  have hcleared : cleared = if v.str = .null then v else tsInitValue := by
    rw [clearStr] at hclear
    split at hclear
    · next hnull => rw [if_pos hnull, Option.some.inj hclear]
    · next hnull =>
      obtain ⟨dead, -, hinit⟩ := Option.bind_eq_some_iff.mp hclear
      rw [if_neg hnull, Option.some.inj hinit]
  rw [bind_of_eq (malloc_apply o)] at h
  rw [tsSetValueStr, show clearStr tsInitValue = some tsInitValue from rfl, check_some, pure_bind,
    bind_of_eq (malloc_apply o), ← hcleared]
  split_ifs at h ⊢ with h0
  · obtain ⟨⟨-, rfl⟩, rfl⟩ := by simpa [pure_apply] using h
    exact ⟨rfl, rfl⟩
  · exact absurd (congrArg (fun r => r.1.1) (Option.some.inj h)) (by simp)

theorem seenAs_numbers_iff {α : Type} {K : NumKind α} {count : ℤ}
    {set : RawValue → Heap (ℤ × RawValue)} {v w : RawValue} {o' : Oracle}
    (h : Numbers K count set v w o o') :
    (∃ fresh, set tsInitValue o = some ((0, fresh), o') ∧ SeenAs w fresh) ↔
      if count = 1 then v.vec.isSet = false ∧ v.array.isSet = false else v.str.isSet = false := by
  simp only [Ptr.isSet_eq_false_iff]
  rcases h with ⟨rfl, x, rfl, hset⟩ | ⟨hcount, vec, elems, rfl, hset⟩
  · rw [if_pos rfl, hset, ← seenAs_withNumber_iff K x]
    simp
  · rw [if_neg hcount, hset, ← seenAs_withVector_iff vec elems]
    simp

theorem shape_numbers {α : Type} {K : NumKind α} {count : ℤ}
    {set : RawValue → Heap (ℤ × RawValue)} {v w : RawValue} {o' : Oracle}
    (h : Numbers K count set v w o o') : w.shape =
      if count = 1 then { v.shape with str := true } else ⟨v.shape.str, true, true⟩ := by
  rcases h with ⟨rfl, x, rfl, -⟩ | ⟨hcount, vec, elems, rfl, -⟩
  · rfl
  · rw [if_neg hcount]
    exact rfl

/-- One call on a value: what is seen of it afterwards. -/
theorem seenAs_run_iff {c : SetCall} {v w : RawValue} {o' : Oracle}
    (h : c.run v o = some ((0, w), o')) :
    (∃ fresh, c.run tsInitValue o = some ((0, fresh), o') ∧ SeenAs w fresh) ↔
      c.Clears v.shape := by
  cases c with
  | str s =>
    obtain ⟨rfl, hset⟩ := exists_of_tsSetValueStr h
    rw [SetCall.run, hset, SetCall.Clears]
    by_cases hstr : v.str = .null
    · rw [if_pos hstr]
      simp [RawValue.shape, hstr, seenAs_withStr_iff, Ptr.isSet_eq_false_iff]
    · rw [if_neg hstr]
      exact iff_of_true ⟨_, rfl, (seenAs_withStr_iff s).mpr ⟨rfl, rfl⟩⟩
        (.inl (Ptr.isSet_iff.mpr hstr))
  | ints count arr => exact seenAs_numbers_iff (numbers_of_setNumbers intKind h)
  | floats count arr => exact seenAs_numbers_iff (numbers_of_setNumbers floatKind h)
  | values count arr =>
    obtain ⟨elems, rfl, hset⟩ := exists_of_tsSetValueArr h
    have hclears : (SetCall.values count arr).Clears v.shape ↔
        v.str = .null ∧ (allnum (arr.take count.toNat) = true ∨ v.vec = .null) := by
      simp only [SetCall.Clears, RawValue.shape, Ptr.isSet_eq_false_iff]
    rw [SetCall.run, hset, hclears, ← seenAs_withElems_iff _ elems count.toNat]
    simp

/-- One call on a value: the pointers it leaves. -/
theorem shape_run {c : SetCall} {v w : RawValue} {o' : Oracle}
    (h : c.run v o = some ((0, w), o')) : w.shape = c.shape v.shape := by
  cases c with
  | str s =>
    obtain ⟨rfl, -⟩ := exists_of_tsSetValueStr h
    by_cases hstr : v.str = .null
    · rw [if_pos hstr]
      simp [SetCall.shape, RawValue.shape, RawValue.withStr, hstr]
    · have hset := Ptr.isSet_iff.mpr hstr
      rw [if_neg hstr]
      simp [SetCall.shape, RawValue.shape, RawValue.withStr, tsInitValue, hset]
  | ints count arr => exact shape_numbers (numbers_of_setNumbers intKind h)
  | floats count arr => exact shape_numbers (numbers_of_setNumbers floatKind h)
  | values count arr =>
    obtain ⟨elems, rfl, -⟩ := exists_of_tsSetValueArr h
    rw [SetCall.shape]
    cases allnum (arr.take count.toNat) <;>
      simp [RawValue.shape, RawValue.withElems]

/-- The pointers of a value after calls that succeeded. -/
theorem shape_eq {calls : List SetCall} {v : RawValue} {o' : Oracle} (h : Sets o calls v o') :
    v.shape = shapeAfter calls := by
  induction h with
  | init => rfl
  | call before h ih => rw [shape_run h, ih, shapeAfter, shapeAfter, List.foldl_append]; exact rfl

/-- **When only the last call can be seen**: after calls that succeeded, another one that succeeds
leaves what it would have left of a fresh value, to every getter, exactly when the calls before it
left no pointer that it leaves in place. -/
theorem seen_last_iff (o : Oracle) (calls : List SetCall) (c : SetCall) (v w : RawValue)
    (o₁ o₂ : Oracle) (before : Sets o calls v o₁) (h : c.run v o₁ = some ((0, w), o₂)) :
    (∃ fresh, c.run tsInitValue o₁ = some ((0, fresh), o₂) ∧ SeenAs w fresh) ↔
      c.Clears (shapeAfter calls) := by
  rw [← shape_eq before]
  exact seenAs_run_iff h

/-- A string after a string. -/
theorem seen_last_iff_str :
    (∃ fresh, (SetCall.str [98]).run tsInitValue Oracle.always =
        some ((0, fresh), Oracle.always) ∧ SeenAs (tsInitValue.withStr [98]) fresh) ↔
      (SetCall.str [98]).Clears (shapeAfter [.str [97]]) :=
  seen_last_iff Oracle.always [.str [97]] (.str [98]) _ _ _ _ (.call .init rfl) rfl

/-- The vector of two numbers can still be seen after the value was set to a string. -/
theorem not_seen_last : ∃ v w, Sets Oracle.always [.ints 2 [1, 2]] v Oracle.always ∧
    (SetCall.str [97]).run v Oracle.always = some ((0, w), Oracle.always) ∧
    ¬ ∃ fresh, (SetCall.str [97]).run tsInitValue Oracle.always =
      some ((0, fresh), Oracle.always) ∧ SeenAs w fresh := by
  have hints : (SetCall.ints 2 [1, 2]).run tsInitValue Oracle.always =
      some ((0, tsInitValue.withVector [.ofInt 1, .ofInt 2] [elemOf (.ofInt 1), elemOf (.ofInt 2)]),
        Oracle.always) := by
    rw [SetCall.run, tsSetValueiArr, setNumbers_of_two_le intKind le_rfl (by decide)]
    exact (gives_setVector _).always
  have hstr : (SetCall.str [97]).run (tsInitValue.withVector [.ofInt 1, .ofInt 2]
      [elemOf (.ofInt 1), elemOf (.ofInt 2)]) Oracle.always =
      some ((0, (tsInitValue.withVector [.ofInt 1, .ofInt 2]
        [elemOf (.ofInt 1), elemOf (.ofInt 2)]).withStr [97]), Oracle.always) := rfl
  refine ⟨_, _, .call .init hints, hstr, fun hseen => ?_⟩
  simpa [SetCall.Clears, RawValue.shape, RawValue.withVector, tsInitValue] using
    (seenAs_run_iff hstr).mp hseen

end Visftp.Raw
