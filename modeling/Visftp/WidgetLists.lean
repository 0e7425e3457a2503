import Visftp.ChildLists

/-!
# Lists of widgets

`tui_add_widget` and `tui_remove_widget` on the pointers of the widgets: a widget has the first of
its children, its parent and its next sibling. A widget is added at the front. It is not taken out
of the list of the parent that it had, so that only widgets without a parent can be added.

The walk of `tui_remove_widget` is the one of `ts_remove_child`, and has the same bound.

## Main definitions

* `Widgets` — the pointers
* `tuiAddWidget`, `tuiRemoveWidget` — the functions
* `Widgets.Holds` — the pointers of the widgets are those of the lists
* `WidgetOp.Fits` — a widget with a parent is not added to another one

## Main results

* `Widgets.Holds.add_fits`, `Widgets.Holds.removeWidget` — one call
* `widgets_run_iff` — the runs from fresh widgets in which the lists and the parents agree
-/

namespace Visftp

open Chains Function
open ChildLists (walk walk_eq removeKid removeKid_eq)

variable {ν : Type*}

/-- The pointers of all the widgets. -/
structure Widgets (ν : Type*) where
  par : ν → Option ν
  child : ν → Option ν
  next : ν → Option ν

/-- Widgets from `tui_widget`. -/
def newWidgets : Widgets ν where
  par _ := none
  child _ := none
  next _ := none

/-- **The lists and the parents agree**: the list of a parent has the widgets that name it, each of
them once. -/
structure Widgets.Holds (h : Widgets ν) (kids : ν → List ν) : Prop where
  segment : ∀ m, Segment h.next (h.child m) (kids m) none
  mem_iff : ∀ m w, w ∈ kids m ↔ h.par w = some m
  nodup : ∀ m, (kids m).Nodup

theorem holds_newWidgets : (newWidgets : Widgets ν).Holds fun _ => [] where
  segment _ := rfl
  mem_iff m w := by simp [newWidgets]
  nodup _ := List.nodup_nil

variable {h : Widgets ν} {kids : ν → List ν} {par w : ν} {l r : List ν} {fuel : ℕ}

/-- A widget is in one list only. -/
theorem Widgets.Holds.eq_of_mem (hold : h.Holds kids) {m m' : ν} (hm : w ∈ kids m)
    (hm' : w ∈ kids m') : m = m' :=
  Option.some.inj (((hold.mem_iff m w).mp hm).symm.trans ((hold.mem_iff m' w).mp hm'))

variable [DecidableEq ν]

/-- `tui_add_widget` -/
def tuiAddWidget (par w : ν) (h : Widgets ν) : Widgets ν :=
  if h.par w = some par then h
  else
    { next := update h.next w (h.child par)
      child := update h.child par (some w)
      par := update h.par w (some par) }

/-- `tui_remove_widget`, where the walk has ended: behind `iter`, which is `none` for the dummy, or
at the end of the list. -/
def unlinkWidget (par w : ν) (found : Option ν × Option ν) (h : Widgets ν) : Widgets ν :=
  let h := match found with
    | (_, none) => h
    | (none, some _) => { h with child := update h.child par (h.next w) }
    | (some i, some _) => { h with next := update h.next i (h.next w) }
  { h with next := update h.next w none, par := update h.par w none }

/-- `tui_remove_widget` -/
def tuiRemoveWidget (fuel : ℕ) (par w : ν) (h : Widgets ν) : Option (Widgets ν) :=
  if h.par w = some par then
    (walk h.next w fuel none (h.child par)).map fun found => unlinkWidget par w found h
  else some h

/-! ### Runs -/

/-- A call of one of the functions. -/
inductive WidgetOp (ν : Type*)
  | add (par w : ν)
  | remove (par w : ν)

/-- What a call does. -/
def WidgetOp.run (fuel : ℕ) (h : Widgets ν) : WidgetOp ν → Option (Widgets ν)
  | .add par w => some (tuiAddWidget par w h)
  | .remove par w => tuiRemoveWidget fuel par w h

/-- The lists after a widget was added: it moves to the front of another list, unless it is in that
one already. -/
def addWidget (par w : ν) (kids : ν → List ν) (m : ν) : List ν :=
  if w ∈ kids par then kids m
  else (if m = par then [w] else []) ++ (kids m).erase w

/-- What a call does to the lists. -/
def WidgetOp.onKids (kids : ν → List ν) : WidgetOp ν → ν → List ν
  | .add par w => addWidget par w kids
  | .remove par w => removeKid par w kids

/-- The calls of a run, one after the other. -/
def runWidgets (fuel : ℕ) (ops : List (WidgetOp ν)) : Option (Widgets ν) :=
  ops.foldlM (WidgetOp.run fuel) newWidgets

/-- The lists after the calls of a run. -/
def widgetLists (ops : List (WidgetOp ν)) : ν → List ν := ops.foldl WidgetOp.onKids fun _ => []

/-- A widget that has a parent is not added to another one. -/
def WidgetOp.Fits (h : Widgets ν) : WidgetOp ν → Prop
  | .add par w => h.par w = none ∨ h.par w = some par
  | .remove _ _ => True

/-! ### Adding -/

/-- **A widget without a parent is added.** -/
theorem Widgets.Holds.add (hold : h.Holds kids) (par : ν) (hw : h.par w = none) :
    (tuiAddWidget par w h).Holds (addWidget par w kids) := by
  have hnone : ∀ m, w ∉ kids m := fun m hmem => by simp [(hold.mem_iff m w).mp hmem] at hw
  have hkids : ∀ m, addWidget par w kids m = (if m = par then [w] else []) ++ kids m := fun m => by
    rw [addWidget, if_neg (hnone par), List.erase_of_not_mem (hnone m)]
  have hframe : ∀ m, Segment (update h.next w (h.child par)) (h.child m) (kids m) none := fun m =>
    (hold.segment m).congr fun a ha => update_of_ne (ne_of_mem_of_not_mem ha (hnone m)) _ _
  rw [tuiAddWidget, if_neg (by simp [hw])]
  refine ⟨fun m => ?_, fun m a => ?_, fun m => ?_⟩
  · rw [hkids]
    rcases eq_or_ne m par with rfl | hm
    · rw [if_pos rfl]
      refine ⟨update_self _ _ _, ?_⟩
      show Segment _ (update h.next w (h.child m) w) (kids m) none
      rw [update_self]
      exact hframe m
    · rw [if_neg hm]
      show Segment _ (update h.child par (some w) m) (kids m) none
      rw [update_of_ne hm]
      exact hframe m
  · rw [hkids]
    show _ ↔ update h.par w (some par) a = some m
    rcases eq_or_ne a w with rfl | ha
    · rw [update_self, Option.some.injEq]
      rcases eq_or_ne m par with rfl | hm
      · simp
      · rw [if_neg hm]
        exact iff_of_false (hnone m) hm.symm
    · rw [update_of_ne ha, ← hold.mem_iff]
      split <;> simp [ha]
  · rw [hkids]
    split
    · exact List.nodup_cons.mpr ⟨hnone m, hold.nodup m⟩
    · exact hold.nodup m

theorem Widgets.Holds.add_fits (hold : h.Holds kids) (hfits : (WidgetOp.add par w).Fits h) :
    (tuiAddWidget par w h).Holds (addWidget par w kids) := by
  rcases hfits with hnone | hpar
  · exact hold.add par hnone
  · have hkids : addWidget par w kids = kids :=
      funext fun m => by rw [addWidget, if_pos ((hold.mem_iff par w).mpr hpar)]
    rw [tuiAddWidget, if_pos hpar, hkids]
    exact hold

/-- **A widget with another parent stays in its list**, so that no lists agree with the parents. -/
theorem Widgets.Holds.fits_of_add (hold : h.Holds kids) {kids' : ν → List ν}
    (hold' : (tuiAddWidget par w h).Holds kids') : (WidgetOp.add par w).Fits h := by
  by_contra hfits
  obtain ⟨hnone, hpar⟩ := not_or.mp hfits
  obtain ⟨q, hq⟩ := Option.ne_none_iff_exists'.mp hnone
  rw [tuiAddWidget, if_neg hpar] at hold'
  have hne : q ≠ par := by
    rintro rfl
    exact hpar hq
  obtain ⟨l, r, hl, hw⟩ := List.eq_append_cons_of_mem ((hold.mem_iff q w).mpr hq)
  have hseg := hold.segment q
  rw [hl] at hseg
  obtain ⟨mid, hfront, rfl, -⟩ := segment_append_iff.mp hseg
  have hseg' : Segment _ (update h.child par (some w) q) (kids' q) none := hold'.segment q
  rw [update_of_ne hne] at hseg'
  have hfront' : Segment (update h.next w (h.child par)) (h.child q) l (some w) :=
    hfront.congr fun a ha => update_of_ne (ne_of_mem_of_not_mem ha hw) _ _
  have hmem : update h.par w (some par) w = some q :=
    (hold'.mem_iff q w).mp (hfront'.mem_of_stop hseg')
  rw [update_self] at hmem
  exact hne (Option.some.inj hmem).symm

/-! ### Removing -/

theorem unlinkWidget_eq (iter : Option ν) : unlinkWidget par w (iter, some w) h =
    { next := update (unlinkNext h.next iter w) w none
      child := unlinkHead h.next iter w h.child par
      par := update h.par w none } := by
  cases iter <;> rfl

/-- **A widget is removed** from its parent. -/
theorem Widgets.Holds.removeWidget (hold : h.Holds kids) (hpar : h.par w = some par)
    (hfuel : (kids par).length < fuel) : ∃ h', tuiRemoveWidget fuel par w h = some h' ∧
      h'.Holds (removeKid par w kids) := by
  obtain ⟨l, r, hkids, hl⟩ := List.eq_append_cons_of_mem ((hold.mem_iff par w).mpr hpar)
  have hseg := hold.segment par
  rw [hkids] at hseg hfuel
  rw [List.length_append] at hfuel
  have hwalk := walk_eq none hseg hl (by simp) (by omega : l.length < fuel)
  have hunlink := segment_unlink hold.segment (fun m m' c => hold.eq_of_mem) (hold.nodup par) hkids
  have hnot : ∀ m, w ∉ removeKid par w kids m := by
    intro m
    rw [removeKid]
    rcases eq_or_ne m par with rfl | hm
    · rw [update_self]
      exact (hold.nodup m).not_mem_erase
    · rw [update_of_ne hm]
      exact fun hmem => hm (hold.eq_of_mem hmem ((hold.mem_iff par w).mpr hpar))
  refine ⟨unlinkWidget par w (l.getLast?, some w) h, ?_, ?_⟩
  · rw [tuiRemoveWidget, if_pos hpar, hwalk, Option.or_none]
    rfl
  rw [unlinkWidget_eq]
  refine ⟨fun m => ?_, fun m a => ?_, fun m => ?_⟩
  · have hm := hunlink m
    rw [← removeKid_eq hkids hl] at hm
    exact hm.congr fun a ha => update_of_ne (ne_of_mem_of_not_mem ha (hnot m)) _ _
  · show _ ↔ update h.par w none a = some m
    rcases eq_or_ne a w with rfl | ha
    · rw [update_self]
      exact iff_of_false (hnot m) (by simp)
    · rw [update_of_ne ha, ← hold.mem_iff, removeKid]
      rcases eq_or_ne m par with rfl | hm
      · rw [update_self]
        exact List.mem_erase_of_ne ha
      · rw [update_of_ne hm]
  · rw [removeKid]
    rcases eq_or_ne m par with rfl | hm
    · rw [update_self]
      exact (hold.nodup m).erase w
    · rw [update_of_ne hm]
      exact hold.nodup m

/-! ### Whole runs -/

/-- A list grows by one widget at most. -/
theorem length_onKids_le (op : WidgetOp ν) (kids : ν → List ν) (m : ν) :
    (op.onKids kids m).length ≤ (kids m).length + 1 := by
  cases op with
  | add par w =>
    rw [WidgetOp.onKids, addWidget]
    have hle := (kids m).length_erase_le (a := w)
    split
    · omega
    · rw [List.length_append]
      split
      · rw [List.length_singleton]
        omega
      · rw [List.length_nil]
        omega
  | remove par w =>
    exact Nat.le_succ_of_le (ChildLists.length_removeKid_le m)

theorem length_widgetLists_le (ops : List (WidgetOp ν)) (m : ν) :
    (widgetLists ops m).length ≤ ops.length := by
  induction ops using List.reverseRecOn with
  | nil => exact Nat.le_refl 0
  | append_singleton ops op ih =>
    have hle := length_onKids_le op (widgetLists ops) m
    rw [widgetLists, List.foldl_append, List.length_append]
    exact Nat.le_trans hle (Nat.succ_le_succ ih)

/-- **One call** keeps the lists and the parents in agreement if and only if it fits. -/
theorem Widgets.Holds.step_iff (hold : h.Holds kids) (hfuel : ∀ m, (kids m).length < fuel)
    (op : WidgetOp ν) :
    (∃ h', op.run fuel h = some h' ∧ h'.Holds (op.onKids kids)) ↔ op.Fits h := by
  cases op with
  | add par w =>
    constructor
    · rintro ⟨h', hrun, hold'⟩
      rw [← Option.some.inj hrun] at hold'
      exact hold.fits_of_add hold'
    · intro hfits
      exact ⟨_, rfl, hold.add_fits hfits⟩
  | remove par w =>
    refine iff_of_true ?_ trivial
    by_cases hpar : h.par w = some par
    · exact hold.removeWidget hpar (hfuel par)
    · refine ⟨h, by rw [WidgetOp.run, tuiRemoveWidget, if_neg hpar], ?_⟩
      have hmem : w ∉ kids par := fun hmem => hpar ((hold.mem_iff par w).mp hmem)
      rwa [WidgetOp.onKids, removeKid, List.erase_of_not_mem hmem, update_eq_self]

/-- **The lists and the parents agree in every state of a run from fresh widgets**, and are those
that moving the widgets gives, if and only if no widget with a parent is added to another one. -/
theorem widgets_run_iff (fuel : ℕ) (ops : List (WidgetOp ν)) (hfuel : ops.length < fuel) :
    (∀ past, past <+: ops → ∃ h, runWidgets fuel past = some h ∧ h.Holds (widgetLists past)) ↔
      ∀ past op h, past ++ [op] <+: ops → runWidgets fuel past = some h → op.Fits h := by
  have hroom : ∀ past, past <+: ops → ∀ m, (widgetLists past m).length < fuel := fun past hpast m =>
    Nat.lt_of_le_of_lt ((length_widgetLists_le past m).trans hpast.length_le) hfuel
  have hrun : ∀ {past : List (WidgetOp ν)} {op : WidgetOp ν} {h : Widgets ν},
      runWidgets fuel past = some h → runWidgets fuel (past ++ [op]) = op.run fuel h := by
    intro past op h hpast
    rw [runWidgets, List.foldlM_append, ← runWidgets, hpast]
    simp
  have hlists : ∀ (past : List (WidgetOp ν)) (op : WidgetOp ν),
      widgetLists (past ++ [op]) = op.onKids (widgetLists past) := fun past op => by
    rw [widgetLists, List.foldl_append]
    rfl
  constructor
  · intro hall past op h hpast hpastrun
    have hbefore := (List.prefix_append past [op]).trans hpast
    obtain ⟨h₁, hrun₁, hold⟩ := hall past hbefore
    obtain rfl := Option.some.inj (hpastrun.symm.trans hrun₁)
    have hafter := hall _ hpast
    rw [hrun hpastrun, hlists] at hafter
    exact (hold.step_iff (hroom past hbefore) op).mp hafter
  · intro hfits past hpast
    induction past using List.reverseRecOn with
    | nil => exact ⟨_, rfl, holds_newWidgets⟩
    | append_singleton past op ih =>
      have hbefore := (List.prefix_append past [op]).trans hpast
      obtain ⟨h, hpastrun, hold⟩ := ih hbefore
      rw [hrun hpastrun, hlists]
      exact (hold.step_iff (hroom past hbefore) op).mpr (hfits past op h hpast hpastrun)

/-- The widgets 2 and 3 are added to 0, and 3 is removed before it is added to 1. -/
def regrouped : List (WidgetOp ℕ) := [.add 0 2, .add 0 3, .remove 0 3, .add 1 3]

theorem widgets_run_iff_regrouped :
    ∃ h, runWidgets 5 regrouped = some h ∧ h.Holds (widgetLists regrouped) := by
  refine (widgets_run_iff 5 regrouped (by decide)).mpr ?_ regrouped (List.prefix_refl _)
  rintro past op h ⟨rest, hpast⟩ hrun
  rcases past with _ | ⟨a, _ | ⟨b, _ | ⟨c, _ | ⟨d, past⟩⟩⟩⟩
  all_goals
    simp only [regrouped, List.nil_append, List.cons_append, List.cons.injEq, List.append_assoc]
      at hpast
  · obtain ⟨rfl, -⟩ := hpast
    obtain rfl := Option.some.inj hrun
    exact Or.inl rfl
  · obtain ⟨rfl, rfl, -⟩ := hpast
    obtain rfl := Option.some.inj hrun
    exact Or.inl rfl
  · obtain ⟨rfl, rfl, rfl, -⟩ := hpast
    exact trivial
  · obtain ⟨rfl, rfl, rfl, rfl, -⟩ := hpast
    obtain rfl := Option.some.inj hrun
    exact Or.inl rfl
  · simp at hpast

/-- A widget of 0 is added to 1, and stays in the list of 0. -/
theorem not_holds_moved : ∃ h, runWidgets 3 [WidgetOp.add 0 2, .add 1 2] = some h ∧
    ∀ kids : ℕ → List ℕ, ¬h.Holds kids := by
  refine ⟨tuiAddWidget 1 2 (tuiAddWidget 0 2 newWidgets), rfl, fun kids hold => ?_⟩
  have hhead : some 2 = (kids 0).head? := (hold.segment 0).ptr_eq
  have hmem := (hold.mem_iff 0 2).mp (List.mem_of_head? hhead.symm)
  exact absurd (show some 1 = some 0 from hmem) (by decide)

end Visftp
