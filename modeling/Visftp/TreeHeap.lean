import Visftp.ChildLists
import Visftp.Lib.Forests

/-!
# Freeing a tree

`ts_free_tree` takes a child off the list of its parent, frees the tree below it, and goes on; then
it frees the attributes of the node and the node. Every pointer that it follows must lead to a block
that has not been freed: a read of a block that was freed, and a second `free`, fail here.

The name of a node is one with the node, and the name and the value of an attribute with the
attribute. The loops have a bound, and what is proved is that some bound is enough.

## Main definitions

* `Heap` — the nodes, the attributes, and the blocks that were freed
* `tsAddAttr`, `tsDestroyNode`, `tsFreeNode`, `tsFreeTree` — the functions
* `Call`, `runCalls` — how trees are made
* `Heap.Has` — the lists of a heap

## Main results

* `tsFreeTree_spec` — what is freed, and what is left alone
* `free_run` — a tree that was made by any calls
-/

namespace Visftp.TreeHeap

open ChildLists Chains Forests Function

/-- What `free` is called with. -/
inductive Block (ν α : Type*)
  | node (m : ν)
  | attr (a : α)
  deriving DecidableEq

/-- Nodes and attributes. -/
structure Heap (ν α : Type*) where
  nodes : Nodes ν
  attrList : ν → Option α
  attrTail : ν → Option α
  /-- `next` of the attributes. -/
  nextAttr : α → Option α
  /-- The blocks that were freed, newest first. -/
  freed : List (Block ν α)

variable {ν α : Type*}

/-- Nodes from `ts_alloc_node` and attributes from `ts_alloc_attr`. -/
def allocHeap : Heap ν α := ⟨allocNodes, fun _ => none, fun _ => none, fun _ => none, []⟩

section Functions

variable [DecidableEq ν] [DecidableEq α]

/-- `free` -/
def free (b : Block ν α) (h : Heap ν α) : Option (Heap ν α) :=
  if b ∈ h.freed then none else some { h with freed := b :: h.freed }

/-- `ts_add_attr`. It fails when `attr_tail` is null although there are attributes. -/
def tsAddAttr (node : ν) (attr : α) (h : Heap ν α) : Option (Heap ν α) :=
  if Block.node node ∈ h.freed ∨ Block.attr attr ∈ h.freed then none
  else
    let h := { h with nextAttr := update h.nextAttr attr none }
    match h.attrList node, h.attrTail node with
    | some _, some tail =>
      if Block.attr tail ∈ h.freed then none
      else some { h with
        nextAttr := update h.nextAttr tail (some attr)
        attrTail := update h.attrTail node (some attr) }
    | some _, none => none
    | none, _ => some { h with
        attrList := update h.attrList node (some attr)
        attrTail := update h.attrTail node (some attr) }

/-- The loop of `ts_destroy_node`. -/
def tsDestroyNode : ℕ → ν → Heap ν α → Option (Heap ν α)
  | 0, _, _ => none
  | fuel + 1, node, h =>
    match h.attrList node with
    | none => some h
    | some attr =>
      if Block.attr attr ∈ h.freed then none
      else do
        let h ← free (.attr attr) { h with
          attrList := update h.attrList node (h.nextAttr attr) }
        tsDestroyNode fuel node h

/-- `ts_free_node` -/
def tsFreeNode (fuel : ℕ) (node : ν) (h : Heap ν α) : Option (Heap ν α) :=
  if Block.node node ∈ h.freed then none
  else do
    let h ← tsDestroyNode fuel node h
    free (.node node) h

/-- `ts_free_tree` of a node, from the head of its loop. -/
def tsFreeTree : ℕ → ν → Heap ν α → Option (Heap ν α)
  | 0, _, _ => none
  | fuel + 1, tree, h =>
    if Block.node tree ∈ h.freed then none
    else match h.nodes.childList tree with
      | none => tsFreeNode (fuel + 1) tree h
      | some child =>
        if Block.node child ∈ h.freed then none
        else do
          let h ← tsFreeTree fuel child { h with
            nodes := { h.nodes with
              childList := update h.nodes.childList tree (h.nodes.next child) } }
          tsFreeTree fuel tree h

end Functions

/-! ### The bounds -/

section Bounds

variable [DecidableEq ν] [DecidableEq α] {h h' : Heap ν α} {m : ν} {fuel fuel' : ℕ}

theorem tsDestroyNode_mono (hrun : tsDestroyNode fuel m h = some h') (hle : fuel ≤ fuel') :
    tsDestroyNode fuel' m h = some h' := by
  induction fuel generalizing h fuel' with
  | zero => simp [tsDestroyNode] at hrun
  | succ fuel ih =>
    obtain ⟨fuel', rfl⟩ : ∃ k, fuel' = k + 1 := ⟨fuel' - 1, by omega⟩
    rw [tsDestroyNode] at hrun ⊢
    split at hrun
    · exact hrun
    split at hrun
    · simp at hrun
    · next hlive =>
      obtain ⟨h₁, hfree, hrest⟩ := Option.bind_eq_some_iff.mp hrun
      rw [if_neg hlive]
      exact Option.bind_eq_some_iff.mpr ⟨h₁, hfree, ih hrest (by omega)⟩

theorem tsFreeNode_mono (hrun : tsFreeNode fuel m h = some h') (hle : fuel ≤ fuel') :
    tsFreeNode fuel' m h = some h' := by
  rw [tsFreeNode] at hrun ⊢
  split at hrun
  · simp at hrun
  · next hlive =>
    obtain ⟨h₁, hdestroy, hfree⟩ := Option.bind_eq_some_iff.mp hrun
    rw [if_neg hlive]
    exact Option.bind_eq_some_iff.mpr ⟨h₁, tsDestroyNode_mono hdestroy hle, hfree⟩

theorem tsFreeTree_mono (hrun : tsFreeTree fuel m h = some h') (hle : fuel ≤ fuel') :
    tsFreeTree fuel' m h = some h' := by
  induction fuel generalizing h h' m fuel' with
  | zero => simp [tsFreeTree] at hrun
  | succ fuel ih =>
    obtain ⟨fuel', rfl⟩ : ∃ k, fuel' = k + 1 := ⟨fuel' - 1, by omega⟩
    rw [tsFreeTree] at hrun ⊢
    split at hrun
    · simp at hrun
    next hlive =>
    rw [if_neg hlive]
    split at hrun
    · exact tsFreeNode_mono hrun hle
    split at hrun
    · simp at hrun
    next hchild =>
    obtain ⟨h₁, hbelow, hrest⟩ := Option.bind_eq_some_iff.mp hrun
    rw [if_neg hchild]
    exact Option.bind_eq_some_iff.mpr ⟨h₁, ih hbelow (by omega), ih hrest (by omega)⟩

end Bounds

/-! ### What is freed -/

variable {h h' h₁ : Heap ν α} {kids : ν → List ν} {attrs : ν → List α} {m c : ν}
  {S S' : ν → Prop} {bs bs' : List (Block ν α)}

/-- The lists of the nodes of a set. -/
def Heap.Lists (h : Heap ν α) (kids : ν → List ν) (attrs : ν → List α) (m : ν) : Prop :=
  Segment h.nodes.next (h.nodes.childList m) (kids m) none ∧
    Segment h.nextAttr (h.attrList m) (attrs m) none

/-- The node and its attributes have not been freed. -/
def Heap.Live (h : Heap ν α) (attrs : ν → List α) (m : ν) : Prop :=
  Block.node m ∉ h.freed ∧ ∀ a ∈ attrs m, Block.attr a ∉ h.freed

/-- The blocks of the nodes of a set. -/
def BlockOf (attrs : ν → List α) (S : ν → Prop) : Block ν α → Prop
  | .node m => S m
  | .attr a => ∃ m, S m ∧ a ∈ attrs m

/-- **Blocks were freed**, those of the nodes of a set, and the lists of the other nodes are as they
were. -/
structure Released (attrs : ν → List α) (S : ν → Prop) (bs : List (Block ν α)) (h h' : Heap ν α) :
    Prop where
  freed : h'.freed = bs ++ h.freed
  blocks : ∀ b, b ∈ bs ↔ BlockOf attrs S b
  nodup : bs.Nodup
  next : h'.nodes.next = h.nodes.next
  nextAttr : h'.nextAttr = h.nextAttr
  childList : ∀ m, ¬S m → h'.nodes.childList m = h.nodes.childList m
  attrList : ∀ m, ¬S m → h'.attrList m = h.attrList m

namespace Released

theorem lists (h : Released attrs S bs h₁ h') (hm : ¬S m) (hl : h₁.Lists kids attrs m) :
    h'.Lists kids attrs m := by
  rw [Heap.Lists, h.next, h.nextAttr, h.childList m hm, h.attrList m hm]
  exact hl

theorem live (h : Released attrs S bs h₁ h') (hu : ∀ m m' a, a ∈ attrs m → a ∈ attrs m' → m = m')
    (hm : ¬S m) (hl : h₁.Live attrs m) : h'.Live attrs m := by
  rw [Heap.Live, h.freed]
  simp only [List.mem_append, not_or]
  refine ⟨⟨fun hmem => hm ((h.blocks _).mp hmem), hl.1⟩, fun a ha => ⟨fun hmem => ?_, hl.2 a ha⟩⟩
  obtain ⟨m', hm', ha'⟩ := (h.blocks _).mp hmem
  exact hm (hu m m' a ha ha' ▸ hm')

/-- **One after the other**, when they have nothing in common. -/
theorem trans (h : Released attrs S bs h₁ h') {h'' : Heap ν α} (h₂ : Released attrs S' bs' h' h'')
    (hu : ∀ m m' a, a ∈ attrs m → a ∈ attrs m' → m = m') (hd : ∀ m, S m → ¬S' m) :
    Released attrs (fun m => S m ∨ S' m) (bs' ++ bs) h₁ h'' where
  freed := by rw [h₂.freed, h.freed, List.append_assoc]
  blocks b := by
    rw [List.mem_append, h.blocks, h₂.blocks]
    cases b with
    | node m => exact or_comm
    | attr a =>
      constructor
      · rintro (⟨m, hm, ha⟩ | ⟨m, hm, ha⟩)
        · exact ⟨m, .inr hm, ha⟩
        · exact ⟨m, .inl hm, ha⟩
      · rintro ⟨m, hm | hm, ha⟩
        · exact .inr ⟨m, hm, ha⟩
        · exact .inl ⟨m, hm, ha⟩
  nodup := by
    refine List.nodup_append'.mpr ⟨h₂.nodup, h.nodup, fun b hb' hb => ?_⟩
    have hb := (h.blocks b).mp hb
    have hb' := (h₂.blocks b).mp hb'
    cases b with
    | node m => exact hd m hb hb'
    | attr a =>
      obtain ⟨m, hm, ha⟩ := hb
      obtain ⟨m', hm', ha'⟩ := hb'
      exact hd m hm (hu m m' a ha ha' ▸ hm')
  next := h₂.next.trans h.next
  nextAttr := h₂.nextAttr.trans h.nextAttr
  childList m hm := by
    rw [not_or] at hm
    rw [h₂.childList m hm.2, h.childList m hm.1]
  attrList m hm := by
    rw [not_or] at hm
    rw [h₂.attrList m hm.2, h.attrList m hm.1]

theorem congr (h : Released attrs S bs h₁ h') (hS : ∀ m, S m ↔ S' m) :
    Released attrs S' bs h₁ h' := by
  rwa [show S = S' from funext fun m => propext (hS m)] at h

end Released

variable [DecidableEq ν] [DecidableEq α]

/-- `ts_destroy_node` frees the attributes. -/
theorem tsDestroyNode_eq {as : List α} (hseg : Segment h.nextAttr (h.attrList m) as none)
    (hnodup : as.Nodup) (hlive : ∀ a ∈ as, Block.attr a ∉ h.freed) :
    tsDestroyNode (as.length + 1) m h = some { h with
      attrList := update h.attrList m none
      freed := (as.map Block.attr).reverse ++ h.freed } := by
  induction as generalizing h with
  | nil =>
    have hnone : h.attrList m = none := hseg
    rw [tsDestroyNode, hnone, show update h.attrList m none = h.attrList by
      rw [← hnone, update_eq_self]]
    rfl
  | cons a as ih =>
    obtain ⟨ha, has⟩ := List.nodup_cons.mp hnodup
    have hfirst : Block.attr a ∉ h.freed := hlive a List.mem_cons_self
    have hrest := ih (h := { h with
      attrList := update h.attrList m (h.nextAttr a)
      freed := .attr a :: h.freed }) (by
        show Segment h.nextAttr (update h.attrList m (h.nextAttr a) m) as none
        rw [update_self]
        exact hseg.2) has fun b hb hmem => by
          rcases List.mem_cons.mp hmem with heq | hmem
          · exact ha (Block.attr.inj heq ▸ hb)
          · exact hlive b (List.mem_cons_of_mem a hb) hmem
    rw [List.length_cons, tsDestroyNode, hseg.1]
    dsimp only
    rw [if_neg hfirst, free, if_neg hfirst]
    refine hrest.trans ?_
    simp [update_idem]

/-- `ts_free_node` frees the attributes and the node. -/
theorem tsFreeNode_spec (hlive : h.Live attrs m)
    (hseg : Segment h.nextAttr (h.attrList m) (attrs m) none) (hnodup : (attrs m).Nodup) :
    ∃ fuel h' bs, tsFreeNode fuel m h = some h' ∧ Released attrs (fun x => x = m) bs h h' := by
  have hdestroy := tsDestroyNode_eq hseg hnodup hlive.2
  have hnode : Block.node m ∉ (attrs m).map Block.attr := by simp
  refine ⟨(attrs m).length + 1, { h with
    attrList := update h.attrList m none
    freed := .node m :: ((attrs m).map Block.attr).reverse ++ h.freed },
    .node m :: ((attrs m).map Block.attr).reverse, ?_, rfl, fun b => ?_, ?_, rfl, rfl,
    fun _ _ => rfl, fun x hx => update_of_ne hx _ _⟩
  · rw [tsFreeNode, if_neg hlive.1, hdestroy]
    refine (if_neg ?_).trans rfl
    rw [List.mem_append, List.mem_reverse, not_or]
    exact ⟨hnode, hlive.1⟩
  · cases b with
    | node x => simp [BlockOf]
    | attr a => simp [BlockOf]
  · rw [List.nodup_cons, List.mem_reverse, List.nodup_reverse]
    exact ⟨hnode, hnodup.map fun _ _ => Block.attr.inj⟩

/-- The loop of `ts_free_tree`, when what is below the children that are left can be freed. -/
theorem tsFreeTree_loop (hf : Forest kids) (hu : ∀ m m' a, a ∈ attrs m → a ∈ attrs m' → m = m')
    (hn : ∀ m, (attrs m).Nodup)
    (hkids : ∀ c ∈ kids m, ∀ h : Heap ν α, (∀ x, Descends kids c x → h.Lists kids attrs x) →
      (∀ x, Descends kids c x → h.Live attrs x) → ∃ fuel h' bs, tsFreeTree fuel c h = some h' ∧
        Released attrs (Descends kids c) bs h h')
    {l : List ν} (hl : l.Sublist (kids m))
    (hseg : Segment h.nodes.next (h.nodes.childList m) l none)
    (hattrs : Segment h.nextAttr (h.attrList m) (attrs m) none) (hlive : h.Live attrs m)
    (hlists : ∀ c ∈ l, ∀ x, Descends kids c x → h.Lists kids attrs x)
    (hlives : ∀ c ∈ l, ∀ x, Descends kids c x → h.Live attrs x) :
    ∃ fuel h' bs, tsFreeTree fuel m h = some h' ∧
      Released attrs (fun x => x = m ∨ ∃ c ∈ l, Descends kids c x) bs h h' := by
  induction l generalizing h with
  | nil =>
    obtain ⟨fuel, h', bs, hrun, hreleased⟩ := tsFreeNode_spec hlive hattrs (hn m)
    refine ⟨fuel + 1, h', bs, ?_, hreleased.congr fun x => by simp⟩
    have hnone : h.nodes.childList m = none := hseg
    rw [tsFreeTree, if_neg hlive.1, hnone]
    exact tsFreeNode_mono hrun (Nat.le_succ fuel)
  | cons c l ih =>
    have hc : c ∈ kids m := hl.subset List.mem_cons_self
    have hcl : c ∉ l := (List.nodup_cons.mp ((hf.nodup m).sublist hl)).1
    have hmc : ∀ {x}, Descends kids c x → x ≠ m := fun hx hxm => hf.not_descends hc (hxm ▸ hx)
    -- the child is taken off the list
    let h₁ : Heap ν α := { h with
      nodes := { h.nodes with childList := update h.nodes.childList m (h.nodes.next c) } }
    have hchild₁ : ∀ x, x ≠ m → h₁.nodes.childList x = h.nodes.childList x :=
      fun x hx => update_of_ne hx _ _
    have hlists₁ : ∀ x, x ≠ m → h.Lists kids attrs x → h₁.Lists kids attrs x := by
      intro x hx hxl
      rw [Heap.Lists, hchild₁ x hx]
      exact hxl
    obtain ⟨fuel, h₂, bs, hrun, hreleased⟩ := hkids c hc h₁
      (fun x hx => hlists₁ x (hmc hx) (hlists c List.mem_cons_self x hx))
      (hlives c List.mem_cons_self)
    -- the rest of the list is as it was
    have hbeside : ∀ c' ∈ l, ∀ x, Descends kids c' x → ¬Descends kids c x := by
      intro c' hc' x hx hx'
      have hc'm : c' ∈ kids m := hl.subset (List.mem_cons_of_mem c hc')
      exact hf.disjoint hc'm hc (ne_of_mem_of_not_mem hc' hcl) hx hx'
    have hm : ¬Descends kids c m := hf.not_descends hc
    obtain ⟨fuel', h', bs', hrest, hreleased'⟩ := ih (h := h₂)
      ((List.sublist_cons_self c l).trans hl)
      (by
        rw [hreleased.next, hreleased.childList m hm]
        show Segment h.nodes.next (update h.nodes.childList m (h.nodes.next c) m) l none
        rw [update_self]
        exact hseg.2)
      (by
        rw [hreleased.nextAttr, hreleased.attrList m hm]
        exact hattrs)
      (hreleased.live hu hm hlive)
      (fun c' hc' x hx => hreleased.lists (hbeside c' hc' x hx) (hlists₁ x (by
          rintro rfl
          exact hf.not_descends (hl.subset (List.mem_cons_of_mem c hc')) hx)
        (hlists c' (List.mem_cons_of_mem c hc') x hx)))
      (fun c' hc' x hx => hreleased.live hu (hbeside c' hc' x hx)
        (hlives c' (List.mem_cons_of_mem c hc') x hx))
    refine ⟨max fuel fuel' + 1, h', bs' ++ bs, ?_, ?_⟩
    · rw [tsFreeTree, if_neg hlive.1, hseg.1]
      dsimp only
      rw [if_neg (hlives c List.mem_cons_self c .refl).1]
      exact Option.bind_eq_some_iff.mpr ⟨h₂, tsFreeTree_mono hrun (le_max_left _ _),
        tsFreeTree_mono hrest (le_max_right _ _)⟩
    · have hboth := hreleased.trans hreleased' hu fun x hx hx' => by
        rcases hx' with rfl | ⟨c', hc', hx'⟩
        · exact hm hx
        · exact hbeside c' hc' x hx' hx
      have hwhole : Released attrs (fun x => Descends kids c x ∨ x = m ∨
          ∃ c' ∈ l, Descends kids c' x) (bs' ++ bs) h h' := by
        refine ⟨hboth.freed, hboth.blocks, hboth.nodup, hboth.next, hboth.nextAttr,
          fun x hx => (hboth.childList x hx).trans (hchild₁ x ?_), hboth.attrList⟩
        rintro rfl
        exact hx (.inr (.inl rfl))
      refine hwhole.congr fun x => ?_
      simp only [List.exists_mem_cons_iff]
      exact or_left_comm

/-- **`ts_free_tree`** frees the blocks of the nodes below a node, each of them once, and leaves the
lists of the other nodes alone. -/
theorem tsFreeTree_spec (hf : Forest kids)
    (hu : ∀ m m' a, a ∈ attrs m → a ∈ attrs m' → m = m') (hn : ∀ m, (attrs m).Nodup)
    (hlists : ∀ x, Descends kids m x → h.Lists kids attrs x)
    (hlive : ∀ x, Descends kids m x → h.Live attrs x) :
    ∃ fuel h' bs, tsFreeTree fuel m h = some h' ∧ Released attrs (Descends kids m) bs h h' := by
  induction m using hf.ends.induction generalizing h with
  | _ m ih =>
    have hbelow : ∀ {c x}, c ∈ kids m → Descends kids c x → Descends kids m x :=
      fun hc hx => hx.head hc
    obtain ⟨fuel, h', bs, hrun, hreleased⟩ := tsFreeTree_loop hf hu hn
      (fun c hc h hl hlv => ih c hc hl hlv) (List.Sublist.refl (kids m)) (hlists m .refl).1
      (hlists m .refl).2 (hlive m .refl) (fun c hc x hx => hlists x (hbelow hc hx))
      (fun c hc x hx => hlive x (hbelow hc hx))
    refine ⟨fuel, h', bs, hrun, hreleased.congr fun x => ?_⟩
    rw [Descends, Relation.ReflTransGen.cases_head_iff]
    exact or_congr eq_comm Iff.rfl

/-! ### How trees are made -/

/-- A call of `ts_add_child`, `ts_remove_child` or `ts_add_attr`. -/
inductive Call (ν α : Type*)
  | child (op : Op ν)
  | attr (node : ν) (a : α)

/-- What a call does, as long as nothing was freed. -/
def Call.run (fuel : ℕ) (h : Heap ν α) : Call ν α → Option (Heap ν α)
  | .child op => (op.run fuel h.nodes).map fun nodes => { h with nodes }
  | .attr node a => tsAddAttr node a h

/-- The calls, one after the other. -/
def runCalls (fuel : ℕ) (h : Heap ν α) (calls : List (Call ν α)) : Option (Heap ν α) :=
  calls.foldlM (Call.run fuel) h

/-- The lists of the children and of the attributes. -/
structure Shape (ν α : Type*) where
  kids : ν → List ν
  attrs : ν → List α

/-- What a call does to the lists. -/
def Call.onShape (s : Shape ν α) : Call ν α → Shape ν α
  | .child op => { s with kids := op.onKids s.kids }
  | .attr node a => { s with attrs := update s.attrs node (s.attrs node ++ [a]) }

/-- No node is put below itself, and no attribute into a list when it is in one. -/
def Call.Proper (s : Shape ν α) : Call ν α → Prop
  | .child (.add node c) => ¬Descends s.kids c node
  | .child (.remove _ _) => True
  | .attr _ a => ∀ m, a ∉ s.attrs m

/-- The lists after calls. -/
def Shape.after (s : Shape ν α) (calls : List (Call ν α)) : Shape ν α := calls.foldl Call.onShape s

/-- Every call is proper when it is made. -/
def Shape.Allows (s : Shape ν α) : List (Call ν α) → Prop
  | [] => True
  | call :: calls => call.Proper s ∧ (call.onShape s).Allows calls

/-- The lists of fresh nodes. -/
def emptyShape : Shape ν α := ⟨fun _ => [], fun _ => []⟩

/-- **The pointers of a heap are those of lists**, which make a forest, and nothing was freed. -/
structure Heap.Has (h : Heap ν α) (s : Shape ν α) : Prop where
  nodes : h.nodes.Holds s.kids
  forest : Forest s.kids
  segment : ∀ m, Segment h.nextAttr (h.attrList m) (s.attrs m) none
  tail_eq : ∀ m t, (s.attrs m).getLast? = some t → h.attrTail m = some t
  unique : ∀ m m' a, a ∈ s.attrs m → a ∈ s.attrs m' → m = m'
  nodup : ∀ m, (s.attrs m).Nodup
  freed : h.freed = []

namespace Heap.Has

variable {s : Shape ν α} {fuel : ℕ} {node : ν} {attr : α}

omit [DecidableEq ν] [DecidableEq α] in
theorem alloc : (allocHeap : Heap ν α).Has emptyShape where
  nodes := holds_allocNodes
  forest := forest_nil
  segment _ := rfl
  tail_eq m t ht := by simp [emptyShape] at ht
  unique _ _ _ ha := absurd ha List.not_mem_nil
  nodup _ := List.nodup_nil
  freed := rfl

omit [DecidableEq α] in
/-- A call for the children keeps the forest. -/
theorem forest_onKids (hold : h.Has s) {op : Op ν} (hp : (Call.child op : Call ν α).Proper s) :
    Forest (op.onKids s.kids) := by
  cases op with
  | remove node child =>
    refine hold.forest.sublist fun m => ?_
    rw [Op.onKids, removeKid]
    rcases eq_or_ne m node with rfl | hm
    · rw [update_self]
      exact List.erase_sublist
    · rw [update_of_ne hm]
  | add node child =>
    rw [Op.onKids, addKid]
    split
    · exact hold.forest
    · have hsub : ∀ m, ((s.kids m).erase child).Sublist (s.kids m) := fun m => List.erase_sublist
      have hout : ∀ m, child ∉ (s.kids m).erase child := fun m hmem =>
        ((hold.forest.nodup m).mem_erase_iff.mp hmem).1 rfl
      have hpath : ¬Descends (fun m => (s.kids m).erase child) child node := fun hpath =>
        hp (Relation.ReflTransGen.mono (fun m c hc => (hsub m).subset hc) _ _ hpath)
      have happend := (hold.forest.sublist hsub).append hout hpath
      convert happend using 1
      funext m
      rcases eq_or_ne m node with rfl | hm
      · rw [update_self, if_pos rfl]
      · rw [update_of_ne hm, if_neg hm, List.append_nil]

omit [DecidableEq α] in
/-- What does not depend on where the attribute is linked. -/
theorem linked (hold : h.Has s) (hout : ∀ m, attr ∉ s.attrs m) {h' : Heap ν α}
    (hnodes : h'.nodes = h.nodes) (hfreed : h'.freed = h.freed)
    (htail : h'.attrTail = update h.attrTail node (some attr))
    (hseg : ∀ m, Segment h'.nextAttr (h'.attrList m)
      (update s.attrs node (s.attrs node ++ [attr]) m) none) :
    h'.Has ((Call.attr node attr).onShape s) := by
  have hmem : ∀ {m a}, a ∈ update s.attrs node (s.attrs node ++ [attr]) m →
      a ∈ s.attrs m ∨ m = node ∧ a = attr := by
    intro m a ha
    rcases eq_or_ne m node with rfl | hm
    · rw [update_self] at ha
      simpa using ha
    · rw [update_of_ne hm] at ha
      exact .inl ha
  refine ⟨hnodes ▸ hold.nodes, hold.forest, hseg, fun m t ht => ?_, fun m m' a ha ha' => ?_,
    fun m => ?_, hfreed.trans hold.freed⟩
  · have ht' : (update s.attrs node (s.attrs node ++ [attr]) m).getLast? = some t := ht
    rw [htail]
    rcases eq_or_ne m node with rfl | hm
    · rw [update_self, List.getLast?_concat] at ht'
      rw [update_self, Option.some.inj ht']
    · rw [update_of_ne hm] at ht'
      rw [update_of_ne hm]
      exact hold.tail_eq m t ht'
  · rcases hmem ha with hma | ⟨hm, rfl⟩ <;> rcases hmem ha' with hma' | ⟨hm', heq⟩
    · exact hold.unique m m' a hma hma'
    · exact absurd (heq ▸ hma) (hout m)
    · exact absurd hma' (hout m')
    · exact hm.trans hm'.symm
  · show (update s.attrs node (s.attrs node ++ [attr]) m).Nodup
    rcases eq_or_ne m node with rfl | hm
    · rw [update_self]
      exact List.nodup_append'.mpr
        ⟨hold.nodup m, List.nodup_singleton attr, by simpa using hout m⟩
    · rw [update_of_ne hm]
      exact hold.nodup m

/-- **An attribute is added** behind the others. -/
theorem addAttr (hold : h.Has s) (hout : ∀ m, attr ∉ s.attrs m) :
    ∃ h', tsAddAttr node attr h = some h' ∧ h'.Has ((Call.attr node attr).onShape s) := by
  -- the attribute is in no list, so that its own pointer may be cleared
  have hclear : ∀ m, Segment (update h.nextAttr attr none) (h.attrList m) (s.attrs m) none :=
    fun m => (hold.segment m).congr fun a ha => update_of_ne (ne_of_mem_of_not_mem ha (hout m)) _ _
  have hseg := hold.segment node
  rcases (s.attrs node).eq_nil_or_concat' with hattrs | ⟨l, t, hattrs⟩
  · rw [hattrs] at hseg
    have hlist : h.attrList node = none := hseg
    refine ⟨{ h with
      nextAttr := update h.nextAttr attr none
      attrList := update h.attrList node (some attr)
      attrTail := update h.attrTail node (some attr) }, ?_,
      hold.linked hout rfl rfl rfl fun m => ?_⟩
    · rw [tsAddAttr, if_neg (by simp [hold.freed])]
      simp only [hlist]
    · show Segment _ (update h.attrList node (some attr) m) _ none
      rcases eq_or_ne m node with rfl | hm
      · rw [update_self, update_self, hattrs]
        exact ⟨rfl, update_self _ _ _⟩
      · rw [update_of_ne hm, update_of_ne hm]
        exact hclear m
  · have hlast : h.attrTail node = some t := hold.tail_eq node t (by rw [hattrs]; simp)
    have hmem : t ∈ s.attrs node := by rw [hattrs]; simp
    obtain ⟨first, hfirst⟩ : ∃ first, h.attrList node = some first := by
      rw [hseg.ptr_eq, hattrs]
      cases l <;> simp
    refine ⟨{ h with
      nextAttr := update (update h.nextAttr attr none) t (some attr)
      attrTail := update h.attrTail node (some attr) }, ?_,
      hold.linked hout rfl rfl rfl fun m => ?_⟩
    · rw [tsAddAttr, if_neg (by simp [hold.freed])]
      simp only [hfirst, hlast]
      rw [if_neg (by simp [hold.freed])]
    · show Segment (update (update h.nextAttr attr none) t (some attr)) (h.attrList m) _ none
      rcases eq_or_ne m node with rfl | hm
      · have hnodup := hold.nodup m
        have hwhole := hclear m
        rw [hattrs] at hnodup hwhole
        rw [update_self, hattrs]
        refine hwhole.link ?_ ?_ (update_self _ _ _)
        · exact fun ht => (List.nodup_append.mp hnodup).2.2 t ht t (List.mem_singleton_self t) rfl
        · exact fun ht => hout m (ht ▸ hmem)
      · rw [update_of_ne hm]
        refine (hclear m).congr fun a ha => update_of_ne ?_ _ _
        rintro rfl
        exact hm (hold.unique m node _ ha hmem)

/-- **One call.** -/
theorem step (hold : h.Has s) (hfuel : ∀ m, (s.kids m).length < fuel) {call : Call ν α}
    (hp : call.Proper s) : ∃ h', call.run fuel h = some h' ∧ h'.Has (call.onShape s) ∧
      ∀ m, ((call.onShape s).kids m).length ≤ (s.kids m).length + 1 := by
  cases call with
  | child op =>
    obtain ⟨nodes, hrun, hnodes, hlen⟩ := hold.nodes.step hfuel op
    refine ⟨{ h with nodes }, by rw [Call.run, hrun]; rfl, ?_, hlen⟩
    exact ⟨hnodes, hold.forest_onKids hp, hold.segment, hold.tail_eq, hold.unique, hold.nodup,
      hold.freed⟩
  | attr node attr =>
    obtain ⟨h', hrun, hold'⟩ := hold.addAttr hp
    exact ⟨h', hrun, hold', fun m => Nat.le_succ _⟩

/-- **Any proper calls.** -/
theorem run (hold : h.Has s) (calls : List (Call ν α)) (hp : s.Allows calls)
    (hfuel : ∀ m, (s.kids m).length + calls.length < fuel) :
    ∃ h', runCalls fuel h calls = some h' ∧ h'.Has (s.after calls) := by
  induction calls generalizing h s with
  | nil => exact ⟨h, rfl, hold⟩
  | cons call calls ih =>
    have hroom : ∀ m, (s.kids m).length < fuel := fun m =>
      Nat.lt_of_le_of_lt (Nat.le_add_right _ _) (hfuel m)
    obtain ⟨h₁, hcall, hold₁, hlen⟩ := hold.step hroom hp.1
    obtain ⟨h₂, hcalls, hold₂⟩ := ih hold₁ hp.2 fun m => by
      have hm := hfuel m
      have hm' := hlen m
      rw [List.length_cons] at hm
      omega
    refine ⟨h₂, ?_, hold₂⟩
    rw [runCalls, List.foldlM_cons, hcall]
    exact hcalls

end Heap.Has

/-- **A tree is freed once and nothing else is**: after any calls that make trees, `ts_free_tree` of
a node without a parent reads nothing that was freed; it frees the nodes below that node and their
attributes, each of them once, and of the nodes that remain, the lists are as they were, and no
block in them was freed. -/
theorem free_run (fuel : ℕ) (calls : List (Call ν α)) (hfuel : calls.length < fuel)
    (hp : emptyShape.Allows calls) (root : ν)
    (hroot : ∀ m, root ∉ (emptyShape.after calls).kids m) :
    ∃ h n h', runCalls fuel allocHeap calls = some h ∧ tsFreeTree n root h = some h' ∧
      let s := emptyShape.after calls
      h'.freed.Nodup ∧
      (∀ b, b ∈ h'.freed ↔ BlockOf s.attrs (Descends s.kids root) b) ∧
      ∀ m, .node m ∉ h'.freed → h'.Lists s.kids s.attrs m ∧
        (∀ c ∈ s.kids m, .node c ∉ h'.freed) ∧ ∀ a ∈ s.attrs m, .attr a ∉ h'.freed := by
  obtain ⟨h, hrun, hold⟩ := Heap.Has.alloc.run calls hp fun m => by simpa [emptyShape] using hfuel
  have hlists : ∀ m, h.Lists (emptyShape.after calls).kids (emptyShape.after calls).attrs m :=
    fun m => ⟨hold.nodes.segment m, hold.segment m⟩
  obtain ⟨n, h', bs, hfree, hreleased⟩ := tsFreeTree_spec (m := root) hold.forest hold.unique
    hold.nodup (fun m _ => hlists m) fun m _ => by simp [Heap.Live, hold.freed]
  have hfreed : h'.freed = bs := by rw [hreleased.freed, hold.freed, List.append_nil]
  refine ⟨h, n, h', hrun, hfree, ?_, fun b => ?_, fun m hm => ?_⟩
  · rw [hfreed]
    exact hreleased.nodup
  · rw [hfreed]
    exact hreleased.blocks b
  · rw [hfreed, hreleased.blocks] at hm
    refine ⟨hreleased.lists hm (hlists m), fun c hc hmem => ?_, fun a ha hmem => ?_⟩
    · rw [hfreed, hreleased.blocks] at hmem
      rcases Relation.ReflTransGen.cases_tail hmem with rfl | ⟨y, hy, hyc⟩
      · exact hroot m hc
      · exact hm (hold.forest.unique _ _ _ hyc hc ▸ hy)
    · rw [hfreed, hreleased.blocks] at hmem
      obtain ⟨y, hy, hay⟩ := hmem
      exact hm (hold.unique _ _ _ hay ha ▸ hy)

/-- The node 1 below 0, 2 below 1 with an attribute, and an attribute elsewhere. -/
def threeNodes : List (Call ℕ ℕ) :=
  [.child (.add 0 1), .child (.add 1 2), .attr 2 7, .attr 3 8]

theorem free_run_threeNodes : ∃ h n h', runCalls 5 allocHeap threeNodes = some h ∧
    tsFreeTree n 0 h = some h' ∧
      let s := emptyShape.after threeNodes
      h'.freed.Nodup ∧
      (∀ b, b ∈ h'.freed ↔ BlockOf s.attrs (Descends s.kids 0) b) ∧
      ∀ m, .node m ∉ h'.freed → h'.Lists s.kids s.attrs m ∧
        (∀ c ∈ s.kids m, .node c ∉ h'.freed) ∧ ∀ a ∈ s.attrs m, .attr a ∉ h'.freed := by
  refine free_run 5 threeNodes (by decide) ⟨?_, ?_, ?_, ?_, trivial⟩ 0 fun m => ?_
  · exact not_descends_of_nil rfl (by decide)
  · exact not_descends_of_nil rfl (by decide)
  · exact fun m => List.not_mem_nil
  · intro m
    simp [Call.onShape, emptyShape, update_apply]
  · simp [Shape.after, threeNodes, Call.onShape, emptyShape, Op.onKids, addKid]

example : ((runCalls 5 allocHeap threeNodes).bind (tsFreeTree 9 0)).map Heap.freed =
    some [.node 0, .node 1, .node 2, .attr 7] := by decide

end Visftp.TreeHeap
