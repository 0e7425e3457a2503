import Visftp.Numerals

/-!
# The tree store

`treestor.c`: values, attributes and nodes, and the functions that `ts_text.c` and `main.c` use on
them. An allocation never fails here.

The lists of attributes and of children are Lean lists, so that the links between siblings and to
the parent are the shape of the tree. An array is a list too, and `array_size` is its length; a
vector keeps `vec_size` beside `vec`, because `ts_set_value_arr` sets the one and not the other.

## Main definitions

* `TsValue`, `TsAttr`, `TsNode`
* `tsSetValueStr`, `tsSetValuef`, `tsSetValueArr`, `tsCopyValue` — making values
* `tsAddAttr`, `tsAddChild`, `tsGetAttr`, `tsGetAttrStr` — building a node and looking into it

## Main results

* `tsSetValueArr_eq_some_iff` — when an array can be made, and what it is
* `tsCopyValue_copy` — a copy of a copy is that copy
-/

namespace Visftp

open CString

/-- `enum ts_value_type`. -/
inductive TsValueType
  | string | number | vector | array
  deriving DecidableEq

/-- `struct ts_value`. -/
structure TsValue where
  /-- What the value is. -/
  type : TsValueType
  /-- The string, or the text of a number; `none` is the null pointer. -/
  str : Option Bytes
  /-- A number as an `int`. -/
  inum : ℤ
  /-- A number as a `float`. -/
  fnum : CFloat
  /-- The numbers of a vector, empty when the pointer is null. -/
  vec : List CFloat
  /-- How many numbers `vec` is said to have. -/
  vecSize : ℕ
  /-- The elements of an array or a vector, empty when the pointer is null. -/
  array : List TsValue

/-- `struct ts_attr`. -/
structure TsAttr where
  /-- The name. -/
  name : Bytes
  /-- The value. -/
  val : TsValue

/-- `struct ts_node`. -/
structure TsNode where
  /-- The name. -/
  name : Bytes
  /-- `attr_list`. -/
  attrs : List TsAttr
  /-- `child_list`. -/
  children : List TsNode

/-! ### Values -/

/-- `ts_init_value`, which clears all of it. -/
def tsInitValue : TsValue where
  type := .string
  str := none
  inum := 0
  fnum := .finite false 0
  vec := []
  vecSize := 0
  array := []

mutual

/-- `ts_copy_value`, into fresh storage. -/
def tsCopyValue : TsValue → TsValue
  | ⟨type, str, inum, fnum, vec, vecSize, array⟩ =>
    ⟨type, str, inum, fnum, vec.take vecSize, vecSize, tsCopyValues array⟩

/-- The loop of `ts_copy_value` over the elements. -/
def tsCopyValues : List TsValue → List TsValue
  | [] => []
  | v :: vs => tsCopyValue v :: tsCopyValues vs

end

/-- `ts_set_value_str`. -/
def tsSetValueStr (tsv : TsValue) (str : Bytes) : TsValue :=
  let tsv := if tsv.str.isSome then tsInitValue else tsv
  { tsv with type := .string, str := some str }

/-- `ts_set_valuef`, which is `ts_set_valuef_arr` with one element. -/
def tsSetValuef (tsv : TsValue) (fnum : CFloat) : TsValue :=
  { tsv with str := some (printG fnum), type := .number, fnum, inum := fnum.toInt }

/-- `ts_set_value_arr`; `none` is the failure. -/
def tsSetValueArr (tsv : TsValue) (arr : List TsValue) : Option TsValue :=
  if arr.length ≤ 1 then none
  else
    let tsv := { tsv with array := tsCopyValues arr }
    if ∀ v ∈ arr, v.type = .number then
      some { tsv with type := .vector, vec := tsv.array.map TsValue.fnum }
    else some { tsv with type := .array }

/-! ### Attributes and nodes -/

/-- `ts_alloc_node`; the name is set afterwards. -/
def tsAllocNode : TsNode := ⟨[], [], []⟩

/-- `ts_add_attr`. -/
def tsAddAttr (node : TsNode) (attr : TsAttr) : TsNode :=
  { node with attrs := node.attrs ++ [attr] }

/-- `ts_add_child`, of a node that has no parent yet. -/
def tsAddChild (node child : TsNode) : TsNode :=
  { node with children := node.children ++ [child] }

/-- `ts_get_attr`. -/
def tsGetAttr (node : TsNode) (name : Bytes) : Option TsAttr :=
  node.attrs.find? fun attr => attr.name = name

/-- `ts_get_attr_str`. -/
def tsGetAttrStr (node : TsNode) (aname : Bytes) (defVal : Option Bytes) : Option Bytes :=
  match tsGetAttr node aname with
  | none => defVal
  | some attr => attr.val.str.or defVal

@[simp] theorem TsNode.eta (node : TsNode) : ⟨node.name, node.attrs, node.children⟩ = node := by
  cases node
  rfl

/-! ### Arrays and copies -/

/-- Induction on a value and the elements of its array. -/
theorem TsValue.induct {P : TsValue → Prop}
    (h : ∀ v : TsValue, (∀ e ∈ v.array, P e) → P v) (v : TsValue) : P v :=
  @TsValue.rec P (fun vs => ∀ e ∈ vs, P e)
    (fun _ _ _ _ _ _ _ ih => h _ ih)
    (by simp)
    (fun _ _ hv hvs => List.forall_mem_cons.mpr ⟨hv, hvs⟩)
    v

theorem tsCopyValues_eq_map (vs : List TsValue) : tsCopyValues vs = vs.map tsCopyValue := by
  induction vs with
  | nil => rfl
  | cons v vs ih => rw [tsCopyValues, ih, List.map_cons]

/-- A vector is made of numbers alone; it gets `vec`, but not `vecSize`. -/
theorem tsSetValueArr_eq_some_iff {tsv w : TsValue} {arr : List TsValue} :
    tsSetValueArr tsv arr = some w ↔ 2 ≤ arr.length ∧
      ((∀ v ∈ arr, v.type = .number) ∧ w = { tsv with
          type := .vector, array := arr.map tsCopyValue,
          vec := (arr.map tsCopyValue).map TsValue.fnum } ∨
        ¬ (∀ v ∈ arr, v.type = .number) ∧
          w = { tsv with type := .array, array := arr.map tsCopyValue }) := by
  rw [tsSetValueArr, tsCopyValues_eq_map]
  split_ifs with hlen hnum
  · have hshort : ¬ 2 ≤ arr.length := by omega
    simp [hshort]
  · have hlong : 2 ≤ arr.length := by omega
    simp only [hlong, eq_true hnum, true_and, not_true_eq_false, false_and, or_false,
      Option.some.injEq]
    exact eq_comm
  · have hlong : 2 ≤ arr.length := by omega
    simp only [hlong, eq_false hnum, true_and, not_false_eq_true, false_and, false_or,
      Option.some.injEq]
    exact eq_comm

theorem tsCopyValue_eq (v : TsValue) :
    tsCopyValue v
      = { v with vec := v.vec.take v.vecSize, array := v.array.map tsCopyValue } := by
  obtain ⟨type, str, inum, fnum, vec, vecSize, array⟩ := v
  rw [tsCopyValue, tsCopyValues_eq_map]

@[simp] theorem tsCopyValue_type (v : TsValue) : (tsCopyValue v).type = v.type := by
  rw [tsCopyValue_eq]

@[simp] theorem tsCopyValue_str (v : TsValue) : (tsCopyValue v).str = v.str := by
  rw [tsCopyValue_eq]

@[simp] theorem tsCopyValue_fnum (v : TsValue) : (tsCopyValue v).fnum = v.fnum := by
  rw [tsCopyValue_eq]

@[simp] theorem tsCopyValue_vecSize (v : TsValue) : (tsCopyValue v).vecSize = v.vecSize := by
  rw [tsCopyValue_eq]

@[simp] theorem tsCopyValue_array (v : TsValue) :
    (tsCopyValue v).array = v.array.map tsCopyValue := by
  rw [tsCopyValue_eq]

/-- A copy has no more to lose: copying it again gives the same. -/
theorem tsCopyValue_copy (v : TsValue) : tsCopyValue (tsCopyValue v) = tsCopyValue v := by
  induction v using TsValue.induct with
  | h v ih =>
    have harray : (v.array.map tsCopyValue).map tsCopyValue = v.array.map tsCopyValue := by
      rw [List.map_map]
      exact List.map_congr_left ih
    rw [tsCopyValue_eq (tsCopyValue v), tsCopyValue_array, harray, tsCopyValue_vecSize,
      tsCopyValue_eq v]
    simp

end Visftp
