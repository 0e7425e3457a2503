import Mathlib.Logic.Relation
import Visftp.Lib.Chains
import Visftp.TreeStore

/-!
# Lists of children

`ts_add_child` and `ts_remove_child` on the pointers of the nodes: every node has the first and the
last of its children, a child its parent and its next sibling. A child is removed by walking along
the list from a node on the stack that stands in front of it; when the only child is removed,
`child_tail` is left with the address of that node, and the pointers of the child stay as they were.

The walk has a bound here, which it never reaches in a run with fewer calls.

## Main definitions

* `Nodes`, `Tail` — the pointers
* `tsRemoveChild`, `tsAddChild` — the functions
* `addKid`, `removeKid` — what they do to the lists
* `Nodes.Holds` — the pointers of the nodes are those of the lists
* `Shows` — the tree that the nodes make

## Main results

* `Nodes.Holds.remove`, `Nodes.Holds.add` — one call
* `holds_run` — a run from fresh nodes
* `Nodes.Holds.shows_add` — adding a child is what it is in the tree store
-/

namespace Visftp.ChildLists

open Chains Function

variable {ν : Type*}

/-- A pointer to the last child. -/
inductive Tail (ν : Type*)
  | null
  | node (a : ν)
  /-- The address of a `dummy` on the stack, of a call that has returned. -/
  | dummy
  deriving DecidableEq

/-- The pointers of all the nodes. -/
structure Nodes (ν : Type*) where
  childList : ν → Option ν
  childTail : ν → Tail ν
  parent : ν → Option ν
  next : ν → Option ν

/-- Nodes from `ts_alloc_node`. -/
def allocNodes : Nodes ν where
  childList _ := none
  childTail _ := .null
  parent _ := none
  next _ := none

/-- **The pointers of the nodes are those of the lists**: the children follow each other, the last
one is at the tail, and a node has the parent in whose list it is, so that it is in one list
only. -/
structure Nodes.Holds (h : Nodes ν) (kids : ν → List ν) : Prop where
  segment : ∀ m, Segment h.next (h.childList m) (kids m) none
  tail_eq : ∀ m t, (kids m).getLast? = some t → h.childTail m = .node t
  mem_iff : ∀ m c, c ∈ kids m ↔ h.parent c = some m
  nodup : ∀ m, (kids m).Nodup

theorem holds_allocNodes : (allocNodes : Nodes ν).Holds fun _ => [] where
  segment _ := rfl
  tail_eq m t h := by simp at h
  mem_iff m c := by simp [allocNodes]
  nodup _ := List.nodup_nil

variable {h : Nodes ν} {kids : ν → List ν} {node child : ν} {l r : List ν} {fuel : ℕ}

/-- A node is in one list only. -/
theorem Nodes.Holds.eq_of_mem (hold : h.Holds kids) {m m' c : ν} (hm : c ∈ kids m)
    (hm' : c ∈ kids m') : m = m' :=
  Option.some.inj (((hold.mem_iff m c).mp hm).symm.trans ((hold.mem_iff m' c).mp hm'))

/-- The child behind another one. -/
theorem Nodes.Holds.next_eq (hold : h.Holds kids) (hkids : kids node = l ++ child :: r) :
    h.next child = r.head? := by
  have hseg := hold.segment node
  rw [hkids] at hseg
  obtain ⟨mid, -, -, hr⟩ := segment_append_iff.mp hseg
  exact hr.ptr_eq

variable [DecidableEq ν]

/-- The loop of `ts_remove_child`, where `iter` is `none` for the dummy: `iter` and `iter->next` at
its end. -/
def walk (next : ν → Option ν) (child : ν) :
    ℕ → Option ν → Option ν → Option (Option ν × Option ν)
  | 0, _, _ => none
  | _ + 1, iter, none => some (iter, none)
  | fuel + 1, iter, some n =>
    if n = child then some (iter, some n) else walk next child fuel (some n) (next n)

/-- `ts_remove_child`, where the child was found behind `iter`. When that is not the dummy,
`child_list` is set to what it was. -/
def unlinkChild (node child : ν) (iter : Option ν) (h : Nodes ν) : Nodes ν :=
  match iter with
  | none =>
    { h with
      parent := update h.parent child none
      childTail := if h.next child = none then update h.childTail node .dummy else h.childTail
      childList := update h.childList node (h.next child) }
  | some i =>
    { h with
      parent := update h.parent child none
      next := update h.next i (h.next child)
      childTail := if h.next child = none then update h.childTail node (.node i) else h.childTail }

/-- `ts_remove_child` -/
def tsRemoveChild (fuel : ℕ) (node child : ν) (h : Nodes ν) : Option (ℤ × Nodes ν) := do
  match ← walk h.next child fuel none (h.childList node) with
  | (_, none) => some (-1, h)
  | (iter, some _) => some (0, unlinkChild node child iter h)

/-- `ts_add_child`, where the child has no parent. It fails when `child_tail` is not a node although
there are children. -/
def linkChild (node child : ν) (h : Nodes ν) : Option (Nodes ν) :=
  let h := { h with parent := update h.parent child (some node), next := update h.next child none }
  match h.childList node, h.childTail node with
  | some _, .node t =>
    some { h with
      next := update h.next t (some child)
      childTail := update h.childTail node (.node child) }
  | some _, _ => none
  | none, _ =>
    some { h with
      childList := update h.childList node (some child)
      childTail := update h.childTail node (.node child) }

/-- `ts_add_child` -/
def tsAddChild (fuel : ℕ) (node child : ν) (h : Nodes ν) : Option (Nodes ν) :=
  match h.parent child with
  | none => linkChild node child h
  | some parent =>
    if parent = node then some h
    else do
      let (_, h) ← tsRemoveChild fuel parent child h
      linkChild node child h

/-! ### Runs -/

/-- The lists after a child was added: at the end, unless it is there already. -/
def addKid (node child : ν) (kids : ν → List ν) : ν → List ν :=
  if child ∈ kids node then kids
  else fun m => (kids m).erase child ++ if m = node then [child] else []

/-- The lists after a child was removed. -/
def removeKid (node child : ν) (kids : ν → List ν) : ν → List ν :=
  update kids node ((kids node).erase child)

/-- A call of one of the functions. -/
inductive Op (ν : Type*)
  | add (node child : ν)
  | remove (node child : ν)

/-- What a call does. -/
def Op.run (fuel : ℕ) (h : Nodes ν) : Op ν → Option (Nodes ν)
  | .add node child => tsAddChild fuel node child h
  | .remove node child => (tsRemoveChild fuel node child h).map Prod.snd

/-- What a call does to the lists. -/
def Op.onKids (kids : ν → List ν) : Op ν → ν → List ν
  | .add node child => addKid node child kids
  | .remove node child => removeKid node child kids

/-! ### The walk -/

/-- The walk ends in front of the child, or at the end of the list when it is not there. -/
theorem walk_eq {next : ν → Option ν} {child : ν} {l rest : List ν} {fuel : ℕ}
    {ptr : Option ν} (iter : Option ν) (h : Segment next ptr (l ++ rest) none) (hl : child ∉ l)
    (hrest : ∀ a ∈ rest.head?, a = child) (hfuel : l.length < fuel) :
    walk next child fuel iter ptr = some (l.getLast?.or iter, rest.head?) := by
  induction l generalizing iter ptr fuel with
  | nil =>
    obtain ⟨fuel, rfl⟩ : ∃ k, fuel = k + 1 := ⟨fuel - 1, by simp at hfuel; omega⟩
    cases rest with
    | nil =>
      obtain rfl : ptr = none := h
      rfl
    | cons a rest =>
      obtain ⟨rfl, -⟩ := h
      rw [walk, if_pos (hrest a rfl)]
      rfl
  | cons b l ih =>
    obtain ⟨rfl, h⟩ := h
    obtain ⟨hb, hl⟩ := not_or.mp (List.mem_cons.not.mp hl)
    obtain ⟨fuel, rfl⟩ : ∃ k, fuel = k + 1 := ⟨fuel - 1, by simp at hfuel; omega⟩
    rw [walk, if_neg (Ne.symm hb), ih (some b) h hl (by simpa using hfuel)]
    cases l with
    | nil => rfl
    | cons c l =>
      rw [List.getLast?_cons_cons, List.getLast?_eq_some_getLast (List.cons_ne_nil c l)]
      rfl

/-! ### Removing -/

theorem unlinkChild_parent (iter : Option ν) :
    (unlinkChild node child iter h).parent = update h.parent child none := by
  cases iter <;> rfl

theorem unlinkChild_childTail_of_ne {m : ν} (iter : Option ν) (hm : m ≠ node) :
    (unlinkChild node child iter h).childTail m = h.childTail m := by
  cases iter with
  | none =>
    rw [unlinkChild]
    split_ifs
    · exact update_of_ne hm _ _
    · rfl
  | some i =>
    rw [unlinkChild]
    split_ifs
    · exact update_of_ne hm _ _
    · rfl

theorem unlinkChild_childTail_of_next (iter : Option ν) (hnext : h.next child ≠ none) :
    (unlinkChild node child iter h).childTail = h.childTail := by
  cases iter with
  | none => exact if_neg hnext
  | some i => exact if_neg hnext

/-- The lists after a child was removed from between two parts of one. -/
theorem removeKid_eq (hkids : kids node = l ++ child :: r) (hl : child ∉ l) :
    removeKid node child kids = update kids node (l ++ r) := by
  rw [removeKid, hkids, List.erase_append_right _ hl, List.erase_cons_head]

theorem unlinkChild_next (iter : Option ν) :
    (unlinkChild node child iter h).next = unlinkNext h.next iter child := by
  cases iter <;> rfl

theorem unlinkChild_childList (iter : Option ν) : (unlinkChild node child iter h).childList =
    unlinkHead h.next iter child h.childList node := by
  cases iter <;> rfl

theorem Nodes.Holds.unlink_segment (hold : h.Holds kids) (hkids : kids node = l ++ child :: r)
    (m : ν) : Segment (unlinkChild node child l.getLast? h).next
      ((unlinkChild node child l.getLast? h).childList m) (update kids node (l ++ r) m) none := by
  rw [unlinkChild_next, unlinkChild_childList]
  exact segment_unlink hold.segment (fun m m' c => hold.eq_of_mem) (hold.nodup node) hkids m

theorem Nodes.Holds.unlink_tail (hold : h.Holds kids) (hkids : kids node = l ++ child :: r)
    {m t : ν} (ht : (update kids node (l ++ r) m).getLast? = some t) :
    (unlinkChild node child l.getLast? h).childTail m = .node t := by
  rcases eq_or_ne m node with rfl | hm
  swap
  · rw [update_of_ne hm] at ht
    rw [unlinkChild_childTail_of_ne _ hm]
    exact hold.tail_eq m t ht
  rw [update_self] at ht
  have hnext := hold.next_eq hkids
  cases r with
  | nil =>
    -- The last child is removed: the tail is the one before it.
    rcases l.eq_nil_or_concat' with rfl | ⟨l, i, rfl⟩
    · simp at ht
    · obtain rfl : i = t := by simpa using ht
      rw [List.getLast?_concat]
      show (if h.next child = none then update h.childTail m (.node i) else h.childTail) m = _
      rw [if_pos (show h.next child = none from hnext), update_self]
  | cons b r =>
    have hsome : h.next child ≠ none := by simp [hnext]
    rw [unlinkChild_childTail_of_next _ hsome]
    refine hold.tail_eq m t ?_
    rw [hkids, ← ht]
    simp [List.getLast?_append]

/-- **A child is removed** from the list that it is in. -/
theorem Nodes.Holds.unlink (hold : h.Holds kids) (hkids : kids node = l ++ child :: r)
    (hl : child ∉ l) :
    (unlinkChild node child l.getLast? h).Holds (removeKid node child kids) where
  segment m := by
    rw [removeKid_eq hkids hl]
    exact hold.unlink_segment hkids m
  tail_eq m t ht := by
    rw [removeKid_eq hkids hl] at ht
    exact hold.unlink_tail hkids ht
  mem_iff m c := by
    have hmem : child ∈ kids node := by rw [hkids]; simp
    rw [unlinkChild_parent, removeKid]
    rcases eq_or_ne c child with rfl | hc
    · rw [update_self]
      refine iff_of_false ?_ (by simp)
      rcases eq_or_ne m node with rfl | hm
      · rw [update_self]
        exact (hold.nodup m).not_mem_erase
      · rw [update_of_ne hm]
        exact fun hmem' => hm (hold.eq_of_mem hmem' hmem)
    · rw [update_of_ne hc, ← hold.mem_iff]
      rcases eq_or_ne m node with rfl | hm
      · rw [update_self]
        exact List.mem_erase_of_ne hc
      · rw [update_of_ne hm]
  nodup m := by
    rw [removeKid]
    rcases eq_or_ne m node with rfl | hm
    · rw [update_self]
      exact (hold.nodup m).erase child
    · rw [update_of_ne hm]
      exact hold.nodup m

/-- `ts_remove_child` of a node that is in the list. -/
theorem Nodes.Holds.remove (hold : h.Holds kids) (hmem : child ∈ kids node)
    (hfuel : (kids node).length < fuel) : ∃ h', tsRemoveChild fuel node child h = some (0, h') ∧
      h'.Holds (removeKid node child kids) := by
  obtain ⟨l, r, hkids, hl⟩ := List.eq_append_cons_of_mem hmem
  have hseg := hold.segment node
  rw [hkids] at hseg hfuel
  rw [List.length_append] at hfuel
  have hwalk := walk_eq none hseg hl (by simp) (by omega : l.length < fuel)
  refine ⟨unlinkChild node child l.getLast? h, ?_, hold.unlink hkids hl⟩
  rw [tsRemoveChild, hwalk, Option.or_none]
  rfl

/-- `ts_remove_child` of a node that is not in the list. -/
theorem Nodes.Holds.remove_of_notMem (hold : h.Holds kids) (hmem : child ∉ kids node)
    (hfuel : (kids node).length < fuel) : tsRemoveChild fuel node child h = some (-1, h) := by
  have hseg := hold.segment node
  rw [← List.append_nil (kids node)] at hseg
  have hwalk := walk_eq none hseg hmem (by simp) hfuel
  rw [tsRemoveChild, hwalk]
  rfl

/-! ### Adding -/

/-- The lists when a child is added at the end of one. -/
def appendKid (node child : ν) (kids : ν → List ν) (m : ν) : List ν :=
  kids m ++ if m = node then [child] else []

theorem appendKid_self : appendKid node child kids node = kids node ++ [child] := by
  rw [appendKid, if_pos rfl]

theorem appendKid_of_ne {m : ν} (hm : m ≠ node) : appendKid node child kids m = kids m := by
  rw [appendKid, if_neg hm, List.append_nil]

/-- What does not depend on where the child is linked. -/
theorem Nodes.Holds.linked (hold : h.Holds kids) (hnone : ∀ m, child ∉ kids m) {h' : Nodes ν}
    (hparent : h'.parent = update h.parent child (some node))
    (htail : h'.childTail = update h.childTail node (.node child))
    (hseg : ∀ m, Segment h'.next (h'.childList m) (appendKid node child kids m) none) :
    h'.Holds (appendKid node child kids) where
  segment := hseg
  tail_eq m t ht := by
    rw [htail]
    rcases eq_or_ne m node with rfl | hm
    · rw [appendKid_self, List.getLast?_concat] at ht
      rw [update_self, Option.some.inj ht]
    · rw [appendKid_of_ne hm] at ht
      rw [update_of_ne hm]
      exact hold.tail_eq m t ht
  mem_iff m c := by
    rw [hparent]
    rcases eq_or_ne c child with rfl | hc
    · rw [update_self, Option.some.injEq]
      rcases eq_or_ne m node with rfl | hm
      · simp [appendKid_self]
      · rw [appendKid_of_ne hm]
        exact iff_of_false (hnone m) hm.symm
    · rw [update_of_ne hc, ← hold.mem_iff]
      rcases eq_or_ne m node with rfl | hm
      · simp [appendKid_self, hc]
      · rw [appendKid_of_ne hm]
  nodup m := by
    rcases eq_or_ne m node with rfl | hm
    · rw [appendKid_self]
      exact List.nodup_append.mpr ⟨hold.nodup m, List.nodup_singleton child,
        fun a ha b hb => by
          rw [List.mem_singleton.mp hb]
          exact ne_of_mem_of_not_mem ha (hnone m)⟩
    · rw [appendKid_of_ne hm]
      exact hold.nodup m

/-- **A child is added** to a list, when it is in none. -/
theorem Nodes.Holds.link (node : ν) (hold : h.Holds kids) (hnone : ∀ m, child ∉ kids m) :
    ∃ h', linkChild node child h = some h' ∧
      h'.Holds (appendKid node child kids) := by
  have hseg := hold.segment node
  -- The child is in no list, so that its own pointer may be cleared.
  have hclear : ∀ m, Segment (update h.next child none) (h.childList m) (kids m) none := fun m =>
    (hold.segment m).congr fun a ha => update_of_ne (ne_of_mem_of_not_mem ha (hnone m)) _ _
  rcases (kids node).eq_nil_or_concat' with hkids | ⟨l, t, hkids⟩
  · rw [hkids] at hseg
    have hlist : h.childList node = none := hseg
    refine ⟨_, by rw [linkChild]; simp only [hlist]; rfl, hold.linked hnone rfl rfl fun m => ?_⟩
    rcases eq_or_ne m node with rfl | hm
    · rw [appendKid_self, hkids]
      exact ⟨update_self _ _ _, update_self _ _ _⟩
    · rw [appendKid_of_ne hm]
      show Segment (update h.next child none) (update h.childList node (some child) m) (kids m) none
      rw [update_of_ne hm]
      exact hclear m
  · have hlast : h.childTail node = .node t := hold.tail_eq node t (by rw [hkids]; simp)
    have hmem : t ∈ kids node := by rw [hkids]; simp
    obtain ⟨first, hfirst⟩ : ∃ first, h.childList node = some first := by
      rw [hseg.ptr_eq, hkids]
      cases l <;> simp
    refine ⟨_, by rw [linkChild]; simp only [hfirst, hlast]; rfl,
      hold.linked hnone rfl rfl fun m => ?_⟩
    show Segment (update (update h.next child none) t (some child)) (h.childList m) _ none
    rcases eq_or_ne m node with rfl | hm
    · have hnodup := hold.nodup m
      have hwhole := hclear m
      rw [hkids] at hnodup hwhole
      rw [appendKid_self, hkids]
      refine hwhole.link ?_ ?_ (update_self _ _ _)
      · exact fun ht => (List.nodup_append.mp hnodup).2.2 t ht t (List.mem_singleton_self t) rfl
      · exact fun ht => hnone m (ht ▸ hmem)
    · rw [appendKid_of_ne hm]
      refine (hclear m).congr fun a ha => update_of_ne ?_ _ _
      rintro rfl
      exact hm (hold.eq_of_mem ha hmem)

theorem removeKid_of_ne {m : ν} (hm : m ≠ node) : removeKid node child kids m = kids m :=
  update_of_ne hm _ _

theorem removeKid_self : removeKid node child kids node = (kids node).erase child :=
  update_self _ _ _

theorem length_removeKid_le (m : ν) : (removeKid node child kids m).length ≤ (kids m).length := by
  rcases eq_or_ne m node with rfl | hm
  · rw [removeKid_self]
    exact List.length_erase_le
  · exact Nat.le_of_eq (congrArg List.length (removeKid_of_ne hm))

theorem length_addKid_le (m : ν) : (addKid node child kids m).length ≤ (kids m).length + 1 := by
  rw [addKid]
  split_ifs
  · exact Nat.le_succ _
  · rw [List.length_append]
    have herase := (kids m).length_erase_le (a := child)
    split_ifs <;> simp <;> omega

/-- `ts_add_child` -/
theorem Nodes.Holds.add (node child : ν) (hold : h.Holds kids)
    (hfuel : ∀ m, (kids m).length < fuel) :
    ∃ h', tsAddChild fuel node child h = some h' ∧ h'.Holds (addKid node child kids) := by
  rw [tsAddChild]
  rcases hparent : h.parent child with _ | parent
  · have hnone : ∀ m, child ∉ kids m := fun m hm => by
      simp [(hold.mem_iff m child).mp hm] at hparent
    have hkids : addKid node child kids = appendKid node child kids := by
      rw [addKid, if_neg (hnone node)]
      funext m
      rw [List.erase_of_not_mem (hnone m), appendKid]
    rw [hkids]
    exact hold.link node hnone
  have hmem := (hold.mem_iff parent child).mpr hparent
  rcases eq_or_ne parent node with rfl | hne
  · rw [addKid, if_pos hmem]
    exact ⟨h, if_pos rfl, hold⟩
  · have hnode : child ∉ kids node := fun hnode => hne (hold.eq_of_mem hmem hnode)
    obtain ⟨h₁, hremove, hold₁⟩ := hold.remove hmem (hfuel parent)
    have herase : removeKid parent child kids = fun m => (kids m).erase child := by
      funext m
      rcases eq_or_ne m parent with rfl | hm
      · exact removeKid_self
      · rw [removeKid_of_ne hm, List.erase_of_not_mem fun hm' => hm (hold.eq_of_mem hm' hmem)]
    rw [herase] at hold₁
    obtain ⟨h₂, hlink, hold₂⟩ := hold₁.link node fun m => (hold.nodup m).not_mem_erase
    refine ⟨h₂, ?_, ?_⟩
    · simp only [if_neg hne, hremove]
      exact hlink
    · rw [addKid, if_neg hnode]
      exact hold₂

/-! ### Whole runs -/

/-- The calls of a run, one after the other. -/
def runs (fuel : ℕ) (h : Nodes ν) (ops : List (Op ν)) : Option (Nodes ν) :=
  ops.foldlM (Op.run fuel) h

/-- The lists after the calls of a run. -/
def kidsAfter (ops : List (Op ν)) : ν → List ν := ops.foldl Op.onKids fun _ => []

theorem Nodes.Holds.step (hold : h.Holds kids) (hfuel : ∀ m, (kids m).length < fuel) (op : Op ν) :
    ∃ h', op.run fuel h = some h' ∧ h'.Holds (op.onKids kids) ∧
      ∀ m, (op.onKids kids m).length ≤ (kids m).length + 1 := by
  cases op with
  | add node child =>
    obtain ⟨h', hadd, hold'⟩ := hold.add node child hfuel
    exact ⟨h', hadd, hold', length_addKid_le⟩
  | remove node child =>
    have hlen : ∀ m, (removeKid node child kids m).length ≤ (kids m).length + 1 := fun m =>
      Nat.le_succ_of_le (length_removeKid_le m)
    by_cases hmem : child ∈ kids node
    · obtain ⟨h', hremove, hold'⟩ := hold.remove hmem (hfuel node)
      exact ⟨h', by rw [Op.run, hremove]; rfl, hold', hlen⟩
    · refine ⟨h, by rw [Op.run, hold.remove_of_notMem hmem (hfuel node)]; rfl, ?_, hlen⟩
      rwa [Op.onKids, removeKid, List.erase_of_not_mem hmem, update_eq_self]

theorem Nodes.Holds.runs (ops : List (Op ν)) (hold : h.Holds kids)
    (hfuel : ∀ m, (kids m).length + ops.length < fuel) :
    ∃ h', ChildLists.runs fuel h ops = some h' ∧ h'.Holds (ops.foldl Op.onKids kids) ∧
      ∀ m, (ops.foldl Op.onKids kids m).length < fuel := by
  induction ops generalizing h kids with
  | nil => exact ⟨h, rfl, hold, hfuel⟩
  | cons op ops ih =>
    have hroom : ∀ m, (kids m).length < fuel := fun m =>
      Nat.lt_of_le_of_lt (Nat.le_add_right _ _) (hfuel m)
    obtain ⟨h₁, hop, hold₁, hlen⟩ := hold.step hroom op
    obtain ⟨h₂, hops, h₂'⟩ := ih hold₁ fun m => by
      have hm := hfuel m
      have hm' := hlen m
      rw [List.length_cons] at hm
      omega
    refine ⟨h₂, ?_, h₂'⟩
    rw [ChildLists.runs, List.foldlM_cons, hop]
    exact hops

/-- **The lists of children over a run** from fresh nodes: every call returns, the list of a node is
the one that adding at the end and removing gives, the parents agree with the lists, no node is in
two of them, the tail of a list that is not empty is its last node, and removing a node from a list
that it is not in changes nothing. -/
theorem holds_run (fuel : ℕ) (ops : List (Op ν)) (hfuel : ops.length < fuel) :
    ∃ h, runs fuel allocNodes ops = some h ∧
      (∀ m, Segment h.next (h.childList m) (kidsAfter ops m) none) ∧
      (∀ m c, c ∈ kidsAfter ops m ↔ h.parent c = some m) ∧
      (∀ m, (kidsAfter ops m).Nodup) ∧
      (∀ m m' c, c ∈ kidsAfter ops m → c ∈ kidsAfter ops m' → m = m') ∧
      (∀ m first, h.childList m = some first →
        ∃ last, (kidsAfter ops m).getLast? = some last ∧ h.childTail m = .node last) ∧
      ∀ m c, c ∉ kidsAfter ops m → tsRemoveChild fuel m c h = some (-1, h) := by
  have hempty : ∀ _ : ν, ([] : List ν).length + ops.length < fuel := fun _ => by simpa using hfuel
  obtain ⟨h, hrun, hold, hlen⟩ := holds_allocNodes.runs ops hempty
  refine ⟨h, hrun, hold.segment, hold.mem_iff, hold.nodup, fun m m' c => hold.eq_of_mem, ?_,
    fun m c hmem => hold.remove_of_notMem hmem (hlen m)⟩
  intro m first hfirst
  have hhead := (hold.segment m).ptr_eq
  rcases (kidsAfter ops m).eq_nil_or_concat' with hkids | ⟨l, t, hkids⟩
  · rw [kidsAfter] at hkids
    rw [hkids, hfirst] at hhead
    simp at hhead
  · have hlast : (kidsAfter ops m).getLast? = some t := by rw [hkids]; simp
    exact ⟨t, hlast, hold.tail_eq m t hlast⟩

/-- The nodes 1 and 2 are added to 0, then 1 to 2; the removal of 1 from 0 is one too many. -/
def moves : List (Op ℕ) := [.add 0 1, .add 0 2, .add 2 1, .remove 0 1]

theorem holds_run_moves : ∃ h, runs 5 allocNodes moves = some h ∧
    (∀ m, Segment h.next (h.childList m) (kidsAfter moves m) none) ∧
    (∀ m c, c ∈ kidsAfter moves m ↔ h.parent c = some m) ∧
    (∀ m, (kidsAfter moves m).Nodup) ∧
    (∀ m m' c, c ∈ kidsAfter moves m → c ∈ kidsAfter moves m' → m = m') ∧
    (∀ m first, h.childList m = some first →
      ∃ last, (kidsAfter moves m).getLast? = some last ∧ h.childTail m = .node last) ∧
    ∀ m c, c ∉ kidsAfter moves m → tsRemoveChild 5 m c h = some (-1, h) :=
  holds_run 5 moves (by decide)

example : (kidsAfter moves 0, kidsAfter moves 2) = ([2], [1]) := by decide

/-! ### Trees -/

section Trees

variable {name : ν → Bytes} {attrs : ν → List TsAttr}

mutual

/-- The tree at a node: its name, its attributes and the trees at its children. -/
def Shows (name : ν → Bytes) (attrs : ν → List TsAttr) (kids : ν → List ν) : ν → TsNode → Prop
  | m, ⟨n, as, children⟩ =>
    name m = n ∧ attrs m = as ∧ ShowsAll name attrs kids (kids m) children

/-- The trees at the nodes of a list. -/
def ShowsAll (name : ν → Bytes) (attrs : ν → List TsAttr) (kids : ν → List ν) :
    List ν → List TsNode → Prop
  | [], [] => True
  | m :: ms, c :: cs => Shows name attrs kids m c ∧ ShowsAll name attrs kids ms cs
  | _, _ => False

end

/-- A node is somewhere below another one, or that node. -/
def Below (kids : ν → List ν) : ν → ν → Prop := Relation.ReflTransGen fun m c => c ∈ kids m

/-- Induction on a tree and the trees at its children. -/
theorem tsNode_induct {P : TsNode → Prop} (h : ∀ t : TsNode, (∀ c ∈ t.children, P c) → P t)
    (t : TsNode) : P t :=
  @TsNode.rec P (fun ts => ∀ c ∈ ts, P c) (fun _ _ _ ih => h _ ih) (by simp)
    (fun _ _ hc hcs => List.forall_mem_cons.mpr ⟨hc, hcs⟩) t

omit [DecidableEq ν] in
theorem showsAll_iff {ms : List ν} {cs : List TsNode} : ShowsAll name attrs kids ms cs ↔
    List.Forall₂ (Shows name attrs kids) ms cs := by
  induction ms generalizing cs with
  | nil => cases cs <;> simp [ShowsAll]
  | cons m ms ih => cases cs <;> simp [ShowsAll, ih]

omit [DecidableEq ν] in
theorem shows_iff {m : ν} {t : TsNode} : Shows name attrs kids m t ↔ name m = t.name ∧
    attrs m = t.attrs ∧ List.Forall₂ (Shows name attrs kids) (kids m) t.children := by
  obtain ⟨n, as, children⟩ := t
  rw [Shows, showsAll_iff]

omit [DecidableEq ν] in
/-- The tree at a node only depends on the nodes below it. -/
theorem Shows.congr {kids' : ν → List ν} {m : ν} {t : TsNode} (ht : Shows name attrs kids m t)
    (hkids : ∀ a, Below kids m a → kids' a = kids a) : Shows name attrs kids' m t := by
  induction t using tsNode_induct generalizing m with
  | h t ih =>
    obtain ⟨hname, hattrs, hchildren⟩ := shows_iff.mp ht
    refine shows_iff.mpr ⟨hname, hattrs, ?_⟩
    rw [hkids m .refl]
    rw [List.forall₂_iff_zip] at hchildren ⊢
    refine ⟨hchildren.1, fun {a c} hac => ?_⟩
    refine ih c (List.of_mem_zip hac).2 (hchildren.2 hac) fun b hb => hkids b ?_
    exact .head (List.of_mem_zip hac).1 hb

/-- **Adding a child to a node of a tree**: where the trees at the node and at the child do not
have the node further below, the tree at the node becomes that of the tree store. -/
theorem Nodes.Holds.shows_add (hold : h.Holds kids) (hparent : h.parent child = none)
    {t c : TsNode} (ht : Shows name attrs kids node t) (hc : Shows name attrs kids child c)
    (hnode : ∀ b ∈ kids node, ¬ Below kids b node) (hchild : ¬ Below kids child node) :
    ∃ h' kids', Visftp.ChildLists.tsAddChild fuel node child h = some h' ∧ h'.Holds kids' ∧
      Shows name attrs kids' node (Visftp.tsAddChild t c) := by
  have hnone : ∀ m, child ∉ kids m := fun m hm => by simp [(hold.mem_iff m child).mp hm] at hparent
  obtain ⟨h', hlink, hold'⟩ := hold.link node hnone
  refine ⟨h', _, by rw [ChildLists.tsAddChild, hparent]; exact hlink, hold', ?_⟩
  obtain ⟨hname, hattrs, hchildren⟩ := shows_iff.mp ht
  refine shows_iff.mpr ⟨hname, hattrs, ?_⟩
  have hframe : ∀ {b : ν} {t : TsNode}, ¬ Below kids b node → Shows name attrs kids b t →
      Shows name attrs (appendKid node child kids) b t := fun hb hbt =>
    hbt.congr fun a ha => appendKid_of_ne fun han => hb (han ▸ ha)
  rw [appendKid_self]
  refine List.rel_append ?_ (.cons (hframe hchild hc) .nil)
  rw [List.forall₂_iff_zip] at hchildren ⊢
  refine ⟨hchildren.1, fun {b c} hbc => ?_⟩
  exact hframe (hnode b (List.of_mem_zip hbc).1) (hchildren.2 hbc)

end Trees

end Visftp.ChildLists
