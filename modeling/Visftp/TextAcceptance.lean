import Visftp.TextGrammar

/-!
# The loader and its grammar

What is left of a tree when it is loaded, and when that is all of it. A single-element array makes
the whole file fail, an array beyond 31 elements loses the rest of them, and a stray symbol, which
the format does not have, is taken for a value.

## Main definitions

* `FileTree.Holds` — a node has all that is in the tree, in order
* `AcceptsGrammar` — the loader accepts what the format allows, and returns all of it
* `FileTree.HasStray`, `FileTree.HasSingle`, `FileTree.HasLong` — what can go wrong

## Main results

* `FileTree.load_eq_none_iff`, `FileTree.holds_load_iff` — when a tree is refused, and when nothing
  of it is lost
* `acceptsGrammar_iff`
-/

namespace Visftp

open CString

/-! ### Holding a tree -/

mutual

/-- A stored value has what was written: the number, the string, or all the elements. -/
def ValueTree.Holds : ValueTree → TsValue → Prop
  | .num text, w => w.type = .number ∧ w.fnum = (atof text).toFloat
  | .str text, w => w.type = .string ∧ w.str = some (cstr text)
  | .id text, w => w.type = .string ∧ w.str = some (cstr text)
  | .stray _ _, _ => False
  | .array _ first more, w =>
    (w.type = .vector ∨ w.type = .array) ∧
      ∃ e es, w.array = e :: es ∧ first.Holds e ∧ HoldsMore more es

/-- Stored values have what was written, one by one. -/
def HoldsMore : List ValueTree → List TsValue → Prop
  | [], ws => ws = []
  | v :: vs, ws => ∃ e es, ws = e :: es ∧ v.Holds e ∧ HoldsMore vs es

end

mutual

/-- The lists of attributes and of children begin with the item, and the rest of them is `as` and
`cs`. -/
def Item.Holds : Item → List TsAttr → List TsNode → List TsAttr → List TsNode → Prop
  | .attr name val, attrs, children, as, cs =>
    children = cs ∧ ∃ a, attrs = a :: as ∧ a.name = name ∧ val.Holds a.val
  | .child name body, attrs, children, as, cs =>
    attrs = as ∧ ∃ c, children = c :: cs ∧ c.name = name ∧ HoldsBody body c.attrs c.children

/-- The lists are made of the items, in order. -/
def HoldsBody : List Item → List TsAttr → List TsNode → Prop
  | [], attrs, children => attrs = [] ∧ children = []
  | i :: is, attrs, children => ∃ as cs, i.Holds attrs children as cs ∧ HoldsBody is as cs

end

/-- A node has the name, the attributes and the children of the file, in order. -/
def FileTree.Holds (f : FileTree) (node : TsNode) : Prop :=
  node.name = f.name ∧ HoldsBody f.body node.attrs node.children

/-- There is a symbol in the place of a value. -/
def FileTree.HasStray (f : FileTree) : Prop := ∃ v ∈ f.values, v.IsStray

/-- There is an array with a single element. -/
def FileTree.HasSingle (f : FileTree) : Prop := ∃ v ∈ f.values, v.count = 1

/-- There is an array with more elements than the loader keeps. -/
def FileTree.HasLong (f : FileTree) : Prop := ∃ v ∈ f.values, 31 < v.count

/-! ### Arrays -/

/-- What `ts_set_value_arr` needs, and what it makes. -/
theorem tsSetValueArr_eq_some {tsv w : TsValue} {arr : List TsValue}
    (h : tsSetValueArr tsv arr = some w) :
    2 ≤ arr.length ∧ (w.type = .vector ∨ w.type = .array) ∧ w.array = arr.map tsCopyValue := by
  obtain ⟨hlen, ⟨-, rfl⟩ | ⟨-, rfl⟩⟩ := tsSetValueArr_eq_some_iff.mp h
  · exact ⟨hlen, .inl rfl, rfl⟩
  · exact ⟨hlen, .inr rfl, rfl⟩

theorem isSome_tsSetValueArr (tsv : TsValue) (arr : List TsValue) :
    (tsSetValueArr tsv arr).isSome ↔ 2 ≤ arr.length := by
  rw [tsSetValueArr]
  split_ifs with h <;> simp <;> omega

/-- A value is loaded unless there is a single-element array in it. -/
theorem ValueTree.isSome_load (v : ValueTree) :
    v.load.isSome ↔ ∀ u ∈ v.parts, u.count ≠ 1 := by
  induction v using ValueTree.induct with
  | num text => simp [load, parts, count]
  | str text => simp [load, parts, count]
  | id text => simp [load, parts, count]
  | stray c h => simp [load, parts, count]
  | array brace first more ihf ihm =>
    have hmore : (∃ ws, loadMore more = some ws) ↔ ∀ u ∈ moreParts more, u.count ≠ 1 := by
      induction more with
      | nil => simp [loadMore, moreParts]
      | cons v more ih =>
        have hv := ihm v (List.mem_cons_self ..)
        have hvs := ih fun u hu => ihm u (List.mem_cons_of_mem _ hu)
        rw [moreParts, List.forall_mem_append, ← hv, ← hvs, loadMore, Option.isSome_iff_exists]
        cases v.load with
        | none => simp
        | some w => cases loadMore more <;> simp
    have hlen : ∀ ws, loadMore more = some ws → ws.length = more.length := by
      clear ihm hmore
      induction more with
      | nil => simp [loadMore]
      | cons v more ih =>
        intro ws h
        simp only [loadMore, Option.bind_eq_some_iff, Option.map_eq_some_iff] at h
        obtain ⟨w, -, ws, hws, rfl⟩ := h
        simp [ih ws hws]
    rw [parts, List.forall_mem_cons, List.forall_mem_append, ← ihf, ← hmore, load]
    cases first.load with
    | none => simp
    | some w =>
      cases hws : loadMore more with
      | none => simp
      | some ws =>
        have hl := hlen ws hws
        simp [isSome_tsSetValueArr, count, hl, Nat.one_le_iff_ne_zero]

/-- A body is loaded unless there is a single-element array in it. -/
theorem isSome_loadBody (body : List Item) (node : TsNode) :
    (loadBody body node).isSome ↔ ∀ u ∈ bodyValues body, u.count ≠ 1 := by
  induction body using bodyInduct generalizing node with
  | nil => simp [loadBody, bodyValues]
  | attr name val body ih =>
    rw [bodyValues, Item.values, List.forall_mem_append, ← val.isSome_load, loadBody, Item.load]
    cases val.load with
    | none => simp
    | some w => simpa using ih _
  | child name sub body ihsub ih =>
    rw [bodyValues, Item.values, List.forall_mem_append, ← ihsub tsAllocNode, loadBody, Item.load]
    cases loadBody sub tsAllocNode with
    | none => simp
    | some c => simpa using ih _

theorem FileTree.isSome_load (f : FileTree) : f.load.isSome ↔ ¬ f.HasSingle := by
  rw [load, Option.isSome_map, isSome_loadBody, HasSingle]
  simp [values]

/-! ### What is kept -/

theorem holdsMore_copy {more : List ValueTree} {ws : List TsValue}
    (ih : ∀ v ∈ more, ∀ w, v.Holds (tsCopyValue w) ↔ v.Holds w) :
    HoldsMore more (ws.map tsCopyValue) ↔ HoldsMore more ws := by
  induction more generalizing ws with
  | nil => simp [HoldsMore]
  | cons v more ihm =>
    cases ws with
    | nil => simp [HoldsMore]
    | cons w ws =>
      have htail : HoldsMore more (ws.map tsCopyValue) ↔ HoldsMore more ws :=
        ihm fun u hu => ih u (List.mem_cons_of_mem _ hu)
      simp [HoldsMore, ih v (List.mem_cons_self ..), htail]

/-- A copy has the same in it. -/
theorem ValueTree.holds_copy (v : ValueTree) (w : TsValue) :
    v.Holds (tsCopyValue w) ↔ v.Holds w := by
  induction v using ValueTree.induct generalizing w with
  | num text => simp [Holds]
  | str text => simp [Holds]
  | id text => simp [Holds]
  | stray c h => simp [Holds]
  | array brace first more ihf ihm =>
    cases harray : w.array with
    | nil => simp [Holds, harray]
    | cons e es => simp [Holds, harray, ihf, holdsMore_copy ihm]

/-- Nothing stands in the way of keeping a value: it is no symbol, and if it is an array, it has
few enough elements. -/
def ValueTree.Kept (v : ValueTree) : Prop := ¬ v.IsStray ∧ v.count ≤ 31

theorem holdsMore_take {more : List ValueTree} {ws : List TsValue} {n : ℕ}
    (ih : ∀ v ∈ more, ∀ w, v.load = some w → (v.Holds w ↔ ∀ u ∈ v.parts, u.Kept))
    (h : loadMore more = some ws) :
    HoldsMore more ((ws.take n).map tsCopyValue)
      ↔ more.length ≤ n ∧ ∀ u ∈ moreParts more, u.Kept := by
  induction more generalizing ws n with
  | nil =>
    obtain rfl := Option.some.inj h
    simp [HoldsMore, moreParts]
  | cons v more ihm =>
    simp only [loadMore, Option.bind_eq_some_iff, Option.map_eq_some_iff] at h
    obtain ⟨w, hw, ws, hws, rfl⟩ := h
    cases n with
    | zero => simp [HoldsMore]
    | succ n =>
      have htail := ihm (n := n) (fun u hu => ih u (List.mem_cons_of_mem _ hu)) hws
      have hhead := ih v (List.mem_cons_self ..) w hw
      simp only [HoldsMore, List.take_succ_cons, List.map_cons, List.cons.injEq, moreParts,
        List.forall_mem_append, List.length_cons, Nat.add_le_add_iff_right]
      rw [← hhead, ← v.holds_copy]
      constructor
      · rintro ⟨e, es, ⟨rfl, rfl⟩, he, hes⟩
        exact ⟨(htail.mp hes).1, he, (htail.mp hes).2⟩
      · rintro ⟨hn, he, hes⟩
        exact ⟨_, _, ⟨rfl, rfl⟩, he, htail.mpr ⟨hn, hes⟩⟩

/-- A loaded value has all that was written when everything in it is kept. -/
theorem ValueTree.holds_load_iff {v : ValueTree} {w : TsValue} (h : v.load = some w) :
    v.Holds w ↔ ∀ u ∈ v.parts, u.Kept := by
  induction v using ValueTree.induct generalizing w with
  | num text =>
    obtain rfl := Option.some.inj h
    simp [Holds, parts, Kept, IsStray, count, tsSetValuef]
  | str text =>
    obtain rfl := Option.some.inj h
    simp [Holds, parts, Kept, IsStray, count, tsSetValueStr]
  | id text =>
    obtain rfl := Option.some.inj h
    simp [Holds, parts, Kept, IsStray, count, tsSetValueStr]
  | stray c hc => simp [Holds, parts, Kept, IsStray]
  | array brace first more ihf ihm =>
    simp only [load, Option.bind_eq_some_iff] at h
    obtain ⟨w₀, hw₀, ws, hws, hset⟩ := h
    obtain ⟨-, htype, harray⟩ := tsSetValueArr_eq_some hset
    have hmore := holdsMore_take (n := 30) (fun v hv w hw => ihm v hv hw) hws
    rw [List.take_succ_cons, List.map_cons] at harray
    rw [parts, List.forall_mem_cons, List.forall_mem_append, ← ihf hw₀, ← first.holds_copy]
    simp only [Holds, harray, htype, true_and, List.cons.injEq, Kept, IsStray, count,
      not_false_eq_true, Nat.reduceLeDiff]
    constructor
    · rintro ⟨e, es, ⟨rfl, rfl⟩, he, hes⟩
      exact ⟨(hmore.mp hes).1, he, (hmore.mp hes).2⟩
    · rintro ⟨hn, he, hes⟩
      exact ⟨_, _, ⟨rfl, rfl⟩, he, hmore.mpr ⟨hn, hes⟩⟩

/-- What a body adds to a node, and when that is all of it. -/
theorem holdsBody_iff {body : List Item} {node n : TsNode} (h : loadBody body node = some n) :
    ∃ attrs children, n.attrs = node.attrs ++ attrs ∧ n.children = node.children ++ children ∧
      (HoldsBody body attrs children ↔ ∀ u ∈ bodyValues body, u.Kept) := by
  induction body using bodyInduct generalizing node n with
  | nil =>
    obtain rfl := Option.some.inj h
    exact ⟨[], [], by simp [HoldsBody, bodyValues]⟩
  | attr name val body ih =>
    simp only [loadBody, Item.load, Option.bind_eq_some_iff, Option.map_eq_some_iff] at h
    obtain ⟨_, ⟨w, hw, rfl⟩, h⟩ := h
    obtain ⟨attrs, children, hattrs, hchildren, hiff⟩ := ih h
    refine ⟨⟨name, w⟩ :: attrs, children, by simp [hattrs, tsAddAttr],
      by simp [hchildren, tsAddAttr], ?_⟩
    rw [bodyValues, Item.values, List.forall_mem_append, ← ValueTree.holds_load_iff hw, ← hiff]
    constructor
    · rintro ⟨as, cs, ⟨rfl, a, ha, -, hval⟩, hbody⟩
      obtain ⟨rfl, rfl⟩ := List.cons.inj ha
      exact ⟨hval, hbody⟩
    · rintro ⟨hval, hbody⟩
      exact ⟨attrs, children, ⟨rfl, _, rfl, rfl, hval⟩, hbody⟩
  | child name sub body ihsub ih =>
    simp only [loadBody, Item.load, Option.bind_eq_some_iff, Option.map_eq_some_iff] at h
    obtain ⟨_, ⟨c, hc, rfl⟩, h⟩ := h
    obtain ⟨attrs, children, hattrs, hchildren, hiff⟩ := ih h
    obtain ⟨as', cs', has', hcs', hsub⟩ := ihsub hc
    refine ⟨attrs, { c with name } :: children, by simp [hattrs, tsAddChild],
      by simp [hchildren, tsAddChild], ?_⟩
    rw [bodyValues, Item.values, List.forall_mem_append, ← hsub, ← hiff]
    simp only [tsAllocNode, List.nil_append] at has' hcs'
    constructor
    · rintro ⟨as, cs, ⟨rfl, d, hd, -, hsub⟩, hbody⟩
      obtain ⟨rfl, rfl⟩ := List.cons.inj hd
      rw [← has', ← hcs']
      exact ⟨hsub, hbody⟩
    · rintro ⟨hsub, hbody⟩
      rw [← has', ← hcs'] at hsub
      exact ⟨attrs, children, ⟨rfl, _, rfl, rfl, hsub⟩, hbody⟩

theorem FileTree.holds_load_iff {f : FileTree} {node : TsNode} (h : f.load = some node) :
    f.Holds node ↔ ¬ f.HasStray ∧ ¬ f.HasLong := by
  simp only [load, Option.map_eq_some_iff] at h
  obtain ⟨n, hn, rfl⟩ := h
  obtain ⟨attrs, children, hattrs, hchildren, hiff⟩ := holdsBody_iff hn
  simp only [tsAllocNode, List.nil_append] at hattrs hchildren
  rw [Holds, hattrs, hchildren, hiff]
  simp only [true_and, HasStray, HasLong, values, ValueTree.Kept, not_exists, not_and, not_lt]
  exact ⟨fun h => ⟨fun u hu => (h u hu).1, fun u hu => (h u hu).2⟩,
    fun h u hu => ⟨h.1 u hu, h.2 u hu⟩⟩

/-! ### The loader and the format -/

/-- The loader returns a tree when a prefix of the tokens is a file of the format, and then the
tree has all that is in the file. -/
def AcceptsGrammar (file : Bytes) : Prop :=
  ((tsTextLoad file).isSome ↔ ∃ f : FileTree, f.Grammatical ∧ f.toks <+: tokens file) ∧
  ∀ (node : TsNode) (f : FileTree), tsTextLoad file = some node → f.Grammatical →
    f.toks <+: tokens file → f.Holds node

theorem FileTree.grammatical_iff (f : FileTree) : f.Grammatical ↔ ¬ f.HasStray := by
  simp [Grammatical, HasStray]

theorem isSome_tsTextLoad (file : Bytes) :
    (tsTextLoad file).isSome ↔ ∃ f : FileTree, f.toks <+: tokens file ∧ ¬ f.HasSingle := by
  constructor
  · intro h
    obtain ⟨node, hnode⟩ := Option.isSome_iff_exists.mp h
    obtain ⟨f, hf, hload⟩ := exists_of_loadTokens hnode
    exact ⟨f, hf, f.isSome_load.mp (by simp [hload])⟩
  · rintro ⟨f, hf, hsingle⟩
    rw [tsTextLoad, loadTokens_eq hf]
    exact f.isSome_load.mpr hsingle

/-- **The grammar.** The loader accepts the format exactly, on a stream with no stray symbol, no
single-element array and no array beyond 31 elements, and on one with both a stray symbol and a
single-element array, which is refused, if for the wrong reason. -/
theorem acceptsGrammar_iff (file : Bytes) :
    AcceptsGrammar file ↔ ∀ f : FileTree, f.toks <+: tokens file →
      (f.HasStray ∧ f.HasSingle) ∨ (¬ f.HasStray ∧ ¬ f.HasSingle ∧ ¬ f.HasLong) := by
  constructor
  · rintro ⟨haccept, hholds⟩ f hf
    by_cases hstray : f.HasStray
    · refine .inl ⟨hstray, by_contra fun hsingle => ?_⟩
      obtain ⟨f', hgram, hf'⟩ := haccept.mp ((isSome_tsTextLoad file).mpr ⟨f, hf, hsingle⟩)
      rw [FileTree.eq_of_prefix hf' hf, f.grammatical_iff] at hgram
      exact hgram hstray
    · have hgram := f.grammatical_iff.mpr hstray
      obtain ⟨node, hnode⟩ := Option.isSome_iff_exists.mp (haccept.mpr ⟨f, hgram, hf⟩)
      have hload : f.load = some node := by rw [← loadTokens_eq hf, ← hnode, tsTextLoad]
      exact .inr ⟨hstray, f.isSome_load.mp (by simp [hload]),
        ((FileTree.holds_load_iff hload).mp (hholds node f hnode hgram hf)).2⟩
  · intro h
    refine ⟨⟨fun hsome => ?_, ?_⟩, fun node f hnode hgram hf => ?_⟩
    · obtain ⟨f, hf, hsingle⟩ := (isSome_tsTextLoad file).mp hsome
      refine ⟨f, f.grammatical_iff.mpr fun hstray => ?_, hf⟩
      rcases h f hf with h | h
      · exact hsingle h.2
      · exact h.1 hstray
    · rintro ⟨f, hgram, hf⟩
      refine (isSome_tsTextLoad file).mpr ⟨f, hf, fun hsingle => ?_⟩
      rcases h f hf with h | h
      · exact f.grammatical_iff.mp hgram h.1
      · exact h.2.1 hsingle
    · have hstray := f.grammatical_iff.mp hgram
      have hload : f.load = some node := by rw [← loadTokens_eq hf, ← hnode, tsTextLoad]
      refine (FileTree.holds_load_iff hload).mpr ⟨hstray, ?_⟩
      rcases h f hf with h | h
      · exact absurd h.1 hstray
      · exact h.2.2

/-- The file `a { b = [1] }`. -/
def singleFile : FileTree := ⟨ascii "a", [.attr (ascii "b") (.array false (.num (ascii "1")) [])]⟩

/-- An array of one number is of the format, and the loader refuses the file. -/
theorem not_acceptsGrammar_single : ¬ AcceptsGrammar (ascii "a \x7b b = [1] \x7d") := by
  rintro ⟨haccept, -⟩
  have hnone : tsTextLoad (ascii "a \x7b b = [1] \x7d") = none := by
    rw [← Option.isNone_iff_eq_none]
    decide +kernel
  have hsome := haccept.mpr ⟨singleFile, by
    simp [FileTree.Grammatical, FileTree.values, singleFile, bodyValues, Item.values,
      ValueTree.parts, moreParts, ValueTree.IsStray], by decide +kernel⟩
  simp [hnone] at hsome

end Visftp
