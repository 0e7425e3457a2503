import Visftp.TreeStore

/-!
# Paths in the tree store

`ts_lookup` takes a path such as `config.server.name` apart at its dots, one piece at a time: the
first names the root, the last an attribute, and those between lead from child to child. One
variable holds what is left of the path, one the node and one the last piece, and which of them is
null at the end of the loop tells how it ended.

## Main definitions

* `pathtok`, `lookupLoop`, `tsLookup` — the functions
* `IsFirst`, `Reaches` — what a path leads to

## Main results

* `tsLookup_eq_some_iff` — `ts_lookup` finds what the path leads to, and nothing else
-/

namespace Visftp

open CString

/-- The dot between two pieces. -/
def dot : Byte := 46

/-- `pathtok`: the path behind the first dot, or `none` for a null pointer when there is none, and
what it leaves in `tok`. -/
def pathtok (path : Bytes) : Option Bytes × Bytes :=
  match path.dropWhile (· != dot) with
  | [] => (none, path)
  | _ :: rest => (some rest, path.takeWhile (· != dot))

/-- `ts_get_child`. -/
def tsGetChild (node : TsNode) (name : Bytes) : Option TsNode :=
  node.children.find? fun child => child.name = name

theorem length_lt_of_pathtok {path rest tok : Bytes} (h : pathtok path = (some rest, tok)) :
    rest.length < path.length := by
  have hle := (List.dropWhile_suffix (· != dot) (l := path)).length_le
  rw [pathtok] at h
  cases hd : path.dropWhile (· != dot) with
  | nil => simp [hd] at h
  | cons b bs =>
    rw [hd] at h hle
    obtain ⟨hrest, -⟩ := Prod.mk.inj h
    obtain rfl := Option.some.inj hrest
    rw [List.length_cons] at hle
    omega

/-- The loop of `ts_lookup`: what `path`, `node` and `name` hold behind it. -/
def lookupLoop (path : Bytes) (node : TsNode) : Option Bytes × Option TsNode × Bytes :=
  match _h : pathtok path with
  | (none, name) => (none, some node, name)
  | (some rest, name) =>
    match tsGetChild node name with
    | none => (some rest, none, name)
    | some child => lookupLoop rest child
termination_by path.length
decreasing_by exact length_lt_of_pathtok _h

/-- `ts_lookup`. -/
def tsLookup (node : Option TsNode) (path : Bytes) : Option TsAttr :=
  match node with
  | none => none
  | some node =>
    match pathtok path with
    | (none, _) => none
    | (some rest, name) =>
      if name ≠ node.name then none
      else
        match lookupLoop rest node with
        | (none, some node, name) => tsGetAttr node name
        | _ => none

/-! ### What a path leads to -/

/-- `x` is the first one in a list that is `p`. -/
def IsFirst {α : Type} (p : α → Prop) (l : List α) (x : α) : Prop :=
  ∃ before after, l = before ++ x :: after ∧ p x ∧ ∀ y ∈ before, ¬p y

/-- The names lead from one node to another, each of them to the first child of that name. -/
inductive Reaches : TsNode → List Bytes → TsNode → Prop
  | here (node : TsNode) : Reaches node [] node
  | child {node child last : TsNode} {name : Bytes} {names : List Bytes}
      (h : IsFirst (fun c : TsNode => c.name = name) node.children child)
      (hrest : Reaches child names last) : Reaches node (name :: names) last

theorem isFirst_iff_find? {α : Type} {p : α → Prop} [DecidablePred p] {l : List α} {x : α} :
    IsFirst p l x ↔ l.find? (fun y => p y) = some x := by
  rw [List.find?_eq_some_iff_append, IsFirst]
  constructor
  · rintro ⟨before, after, hl, hx, hbefore⟩
    exact ⟨by simpa using hx, before, after, hl, fun y hy => by simpa using hbefore y hy⟩
  · rintro ⟨hx, before, after, hl, hbefore⟩
    exact ⟨before, after, hl, by simpa using hx, fun y hy => by simpa using hbefore y hy⟩

theorem tsGetChild_eq_some_iff {node child : TsNode} {name : Bytes} :
    tsGetChild node name = some child ↔
      IsFirst (fun c : TsNode => c.name = name) node.children child :=
  isFirst_iff_find?.symm

theorem tsGetAttr_eq_some_iff {node : TsNode} {attr : TsAttr} {name : Bytes} :
    tsGetAttr node name = some attr ↔
      IsFirst (fun a : TsAttr => a.name = name) node.attrs attr :=
  isFirst_iff_find?.symm

theorem reaches_nil_iff {node last : TsNode} : Reaches node [] last ↔ last = node := by
  constructor
  · rintro ⟨⟩
    rfl
  · rintro rfl
    exact .here last

theorem reaches_cons_iff {node last : TsNode} {name : Bytes} {names : List Bytes} :
    Reaches node (name :: names) last ↔
      ∃ child, tsGetChild node name = some child ∧ Reaches child names last := by
  constructor
  · rintro ⟨⟩
    next child h hrest => exact ⟨child, tsGetChild_eq_some_iff.mpr h, hrest⟩
  · rintro ⟨child, h, hrest⟩
    exact .child (tsGetChild_eq_some_iff.mp h) hrest

/-! ### The pieces of a path -/

/-- `pathtok` finds no dot, or cuts off the first piece. -/
theorem pathtok_cases (path : Bytes) :
    (pathtok path = (none, path) ∧ path.splitOn dot = [path]) ∨
      ∃ rest tok, pathtok path = (some rest, tok) ∧
        path.splitOn dot = tok :: rest.splitOn dot := by
  have hpath := List.takeWhile_append_dropWhile (p := (· != dot)) (l := path)
  have hnot : dot ∉ path.takeWhile (· != dot) := fun hmem => by
    simpa using List.mem_takeWhile_imp hmem
  rw [pathtok]
  cases hd : path.dropWhile (· != dot) with
  | nil =>
    rw [hd, List.append_nil] at hpath
    rw [hpath] at hnot
    exact .inl ⟨rfl, List.splitOn_eq_singleton hnot⟩
  | cons b rest =>
    obtain rfl : b = dot := by
      have hhead := List.head_dropWhile_not (l := path) (· != dot) (by simp [hd])
      simpa [hd] using hhead
    refine .inr ⟨rest, _, rfl, ?_⟩
    conv_lhs => rw [← hpath, hd]
    exact List.splitOn_append_cons_self_of_not_mem hnot rest

/-- There is a piece behind the first dot, so the first piece is not the last. -/
theorem exists_of_splitOn_eq {rest tok name : Bytes} {names : List Bytes}
    (h : tok :: rest.splitOn dot = names ++ [name]) :
    ∃ names', names = tok :: names' ∧ rest.splitOn dot = names' ++ [name] := by
  cases names with
  | nil => exact absurd (List.cons.inj h).2 (List.splitOn_ne_nil _ _)
  | cons n names =>
    obtain ⟨rfl, hrest⟩ := List.cons.inj h
    exact ⟨names, rfl, hrest⟩

/-- The loop goes along the children that all pieces but the last one name. -/
theorem lookupLoop_eq_iff (path : Bytes) (node last : TsNode) (name : Bytes) :
    lookupLoop path node = (none, some last, name) ↔
      ∃ names, path.splitOn dot = names ++ [name] ∧ Reaches node names last := by
  induction path, node using lookupLoop.induct with
  | case1 path node tok h =>
    -- the last piece
    rcases pathtok_cases path with ⟨htok, hsplit⟩ | ⟨rest, tok', htok, -⟩
    swap
    · simp [h] at htok
    obtain rfl : tok = path := congrArg Prod.snd (h.symm.trans htok)
    rw [lookupLoop, h, hsplit]
    simp only [Prod.mk.injEq, Option.some.injEq, true_and]
    constructor
    · rintro ⟨rfl, rfl⟩
      exact ⟨[], rfl, .here node⟩
    · rintro ⟨names, hnames, hreach⟩
      obtain ⟨rfl, rfl⟩ : names = [] ∧ tok = name := by
        cases names with
        | nil => simpa using hnames
        | cons _ names => simp at hnames
      exact ⟨(reaches_nil_iff.mp hreach).symm, rfl⟩
  | case2 path node rest tok h hchild =>
    -- the child is missing
    rcases pathtok_cases path with ⟨htok, -⟩ | ⟨rest', tok', htok, hsplit⟩
    · simp [h] at htok
    obtain ⟨rfl, rfl⟩ : rest = rest' ∧ tok = tok' := by simpa [h] using htok
    rw [lookupLoop, h, hsplit]
    simp only [hchild, Prod.mk.injEq, reduceCtorEq, false_and, false_iff]
    rintro ⟨names, hnames, hreach⟩
    obtain ⟨names, rfl, -⟩ := exists_of_splitOn_eq hnames
    obtain ⟨child, hc, -⟩ := reaches_cons_iff.mp hreach
    simp [hchild] at hc
  | case3 path node rest tok h child hchild ih =>
    rcases pathtok_cases path with ⟨htok, -⟩ | ⟨rest', tok', htok, hsplit⟩
    · simp [h] at htok
    obtain ⟨rfl, rfl⟩ : rest = rest' ∧ tok = tok' := by simpa [h] using htok
    rw [lookupLoop, h, hsplit]
    simp only [hchild]
    rw [ih]
    constructor
    · rintro ⟨names, hnames, hreach⟩
      exact ⟨tok :: names, by rw [hnames, List.cons_append],
        reaches_cons_iff.mpr ⟨child, hchild, hreach⟩⟩
    · rintro ⟨names, hnames, hreach⟩
      obtain ⟨names, rfl, hrest⟩ := exists_of_splitOn_eq hnames
      obtain ⟨child', hc, hreach⟩ := reaches_cons_iff.mp hreach
      obtain rfl : child = child' := Option.some.inj (hchild.symm.trans hc)
      exact ⟨names, hrest, hreach⟩

/-- **Looking up a path.** `ts_lookup` returns an attribute if and only if the path has at least two
pieces, the first is the name of the root, those between lead from child to child, each to the first
of its name, and the attribute is the first one there that the last piece names. In all other cases
it returns a null pointer. -/
theorem tsLookup_eq_some_iff (root : TsNode) (path : Bytes) (attr : TsAttr) :
    tsLookup (some root) path = some attr ↔
      ∃ names a node, path.splitOn dot = root.name :: (names ++ [a]) ∧ Reaches root names node ∧
        IsFirst (fun x : TsAttr => x.name = a) node.attrs attr := by
  rw [tsLookup]
  rcases pathtok_cases path with ⟨htok, hsplit⟩ | ⟨rest, tok, htok, hsplit⟩
  · rw [htok, hsplit]
    simp
  rw [hsplit]
  simp only [htok]
  by_cases hname : tok = root.name
  swap
  · simp [hname]
  subst hname
  rw [if_neg (by simp)]
  constructor
  · intro h
    split at h
    · next node a hloop =>
      obtain ⟨names, hnames, hreach⟩ := (lookupLoop_eq_iff rest root node a).mp hloop
      exact ⟨names, a, node, by rw [hnames], hreach, tsGetAttr_eq_some_iff.mp h⟩
    · simp at h
  · rintro ⟨names, a, node, hnames, hreach, hattr⟩
    rw [(lookupLoop_eq_iff rest root node a).mpr ⟨names, (List.cons.inj hnames).2, hreach⟩]
    exact tsGetAttr_eq_some_iff.mpr hattr

end Visftp
