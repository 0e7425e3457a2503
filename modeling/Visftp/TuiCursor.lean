import Visftp.MainLoop
import Visftp.TuiSelection

/-!
# The cursor of a list

`tui_clear_list` takes the entries away and leaves the cursor and the scroll offset where they are.
Neither is looked at while the list is empty, and `updateui` sets the cursor to the first entry when
it has filled the list again, so what is drawn stays inside the array. A caller that looks at the
cursor of an empty list may find that of an entry that is gone.

## Main definitions

* `drawn`, `Drawable` — what `draw_list` reads
* `PaneOp`, `TuiList.runPane` — what the main loop does to a list
* `Standing` — the cursor is `-1` or on an entry
* `ListOp.KeepsCursor` — an operation after which it still is

## Main results

* `drawable_runPane` — every draw of a pane
* `standing_run_iff` — the runs of a list in which the cursor is never left behind
-/

namespace Visftp

namespace TuiList

/-! ### Drawing -/

/-- The loop of `draw_list`: the indices of the entries that it reads, from the top line down. -/
def drawn (w : TuiList) : List Int :=
  (List.range (min w.numItems w.visLines).toNat).map fun i : ℕ => (i : Int) + w.viewOffs

/-- **What is drawn is there**: `draw_list` reads only entries of the array, and the cursor is on an
entry that is drawn, when there is one. -/
structure Drawable (w : TuiList) : Prop where
  inside : ∀ idx ∈ w.drawn, 0 ≤ idx ∧ idx < w.numItems
  cursor : w.entries ≠ [] → 0 ≤ w.cur ∧ w.cur < w.numItems
  window : w.entries ≠ [] → w.viewOffs ≤ w.cur ∧ w.cur < w.viewOffs + w.visLines

/-- How `updateui` fills a list. -/
def refresh (texts : List Bytes) (w : TuiList) : TuiList :=
  ((texts.foldl (fun w text => w.add text) w.clear).setcur 0).2

end TuiList

/-- What the main loop does to a list: it is filled, and the cursor keys. -/
inductive PaneOp
  | refresh (texts : List Bytes)
  | up
  | down
  | left
  | right
  | pgup
  | pgdn
  deriving DecidableEq, Repr

namespace TuiList

/-- One of these. -/
def stepPane (w : TuiList) : PaneOp → TuiList
  | .refresh texts => w.refresh texts
  | .up => w.curPrev.2
  | .down => w.curNext.2
  | .left => w.curStart.2
  | .right => w.curEnd.2
  | .pgup => Ui.pageUp w
  | .pgdn => Ui.pageDown w

/-- One after the other. -/
def runPane (w : TuiList) (ops : List PaneOp) : TuiList := ops.foldl stepPane w

@[simp] theorem runPane_append_singleton (w : TuiList) (ops : List PaneOp) (op : PaneOp) :
    w.runPane (ops ++ [op]) = (w.runPane ops).stepPane op := by
  simp [runPane]

/-- **The invariant**: of an empty list, the scroll offset is not behind the cursor; of any other,
the cursor is on a line that is shown, and there is no empty line below the last entry unless the
whole list is shown. -/
structure Placed (height : Int) (w : TuiList) : Prop where
  height_eq : w.height = height
  cur_ge : -1 ≤ w.cur
  offs_nonneg : 0 ≤ w.viewOffs
  offs_le : 0 ≤ w.cur → w.viewOffs ≤ w.cur
  shown : 0 < w.numItems → 0 ≤ w.cur ∧ w.cur < w.numItems ∧ w.cur < w.viewOffs + w.visLines
  full : 0 < w.numItems → w.viewOffs = 0 ∨ w.viewOffs + w.visLines ≤ w.numItems

section Step

variable {height : Int} {w : TuiList}

theorem placed_new (title : Bytes) (height : Int) : Placed height (new title height) where
  height_eq := rfl
  cur_ge := le_rfl
  offs_nonneg := le_rfl
  offs_le _ := by simp [new] at *
  shown h := by simp [new, numItems] at h
  full h := by simp [new, numItems] at h

/-- A list that is placed can be drawn. -/
theorem Placed.drawable (h : Placed height w) : w.Drawable where
  inside idx hidx := by
    obtain ⟨i, hi, rfl⟩ := List.mem_map.mp hidx
    rw [List.mem_range] at hi
    have hoffs := h.offs_nonneg
    rcases h.full (by omega) with hzero | hfull <;> omega
  cursor hne := by
    have hpos : 0 < w.numItems := Int.natCast_pos.mpr (List.length_pos_iff.mpr hne)
    obtain ⟨h₀, h₁, -⟩ := h.shown hpos
    exact ⟨h₀, h₁⟩
  window hne := by
    have hpos : 0 < w.numItems := Int.natCast_pos.mpr (List.length_pos_iff.mpr hne)
    obtain ⟨h₀, -, h₁⟩ := h.shown hpos
    exact ⟨h.offs_le h₀, h₁⟩

/-- The cursor moves to an entry, or the list is empty: what has to be shown for it. -/
theorem Placed.move (h : Placed height w) {cur offs : Int} (dirty : Bool) (hcur : -1 ≤ cur)
    (hoffs : 0 ≤ offs) (hle : 0 ≤ cur → offs ≤ cur)
    (hshown : 0 < w.numItems → 0 ≤ cur ∧ cur < w.numItems ∧ cur < offs + w.visLines)
    (hfull : 0 < w.numItems → offs = 0 ∨ offs + w.visLines ≤ w.numItems) :
    Placed height { w with cur := cur, viewOffs := offs, dirty := dirty } :=
  ⟨h.height_eq, hcur, hoffs, hle, hshown, hfull⟩

theorem Placed.curStart (h : Placed height w) (hv : 0 < w.visLines) :
    Placed height w.curStart.2 :=
  h.move true (by decide) le_rfl (fun h => h) (fun _ => by omega) fun _ => .inl rfl

theorem Placed.curEnd (h : Placed height w) (hv : 0 < w.visLines) : Placed height w.curEnd.2 := by
  have hn : 0 ≤ w.numItems := Int.natCast_nonneg _
  have hoffs : ∀ {x : Int}, (if x < 0 then 0 else x) = max x 0 := by
    intro x
    split <;> omega
  rw [TuiList.curEnd]
  dsimp only
  rw [hoffs]
  exact h.move true (by omega) (by omega) (by omega) (by omega) (by omega)

theorem Placed.curPrev (h : Placed height w) (hv : 0 < w.visLines) :
    Placed height w.curPrev.2 := by
  rw [TuiList.curPrev]
  split
  · exact h
  · next hpos =>
    have hle := h.offs_le (by omega)
    have hge := h.offs_nonneg
    have hshown := h.shown
    have hfull := h.full
    dsimp only
    split
    · next habove =>
      have habove' : w.cur - 1 < w.viewOffs := habove
      show Placed height { w with cur := w.cur - 1, viewOffs := w.cur - 1, dirty := true }
      exact h.move true (by omega) (by omega) (by omega) (by omega) (by omega)
    · next habove =>
      have habove' : ¬w.cur - 1 < w.viewOffs := habove
      show Placed height { w with cur := w.cur - 1, viewOffs := w.viewOffs, dirty := true }
      exact h.move true (by omega) hge (by omega) (by omega) hfull

theorem Placed.curNext (h : Placed height w) (hv : 0 < w.visLines) :
    Placed height w.curNext.2 := by
  rw [TuiList.curNext]
  split
  · exact h
  · have hcur := h.cur_ge
    have hle := h.offs_le
    have hge := h.offs_nonneg
    have hshown := h.shown
    have hfull := h.full
    dsimp only
    split
    · next hbelow =>
      have hbelow' : w.visLines ≤ w.cur + 1 - w.viewOffs := hbelow
      show Placed height
        { w with cur := w.cur + 1, viewOffs := w.cur + 1 - w.visLines + 1, dirty := true }
      exact h.move true (by omega) (by omega) (by omega) (by omega) (by omega)
    · next hbelow =>
      have hbelow' : ¬w.visLines ≤ w.cur + 1 - w.viewOffs := hbelow
      show Placed height { w with cur := w.cur + 1, viewOffs := w.viewOffs, dirty := true }
      exact h.move true (by omega) hge (by omega) (by omega) hfull

/-- The scroll offset that shows an entry in the middle, as far as the ends allow. -/
theorem centre_offs {idx n v : Int} (hv : 0 < v) (h₀ : 0 ≤ idx) (h₁ : idx < n) :
    ∃ offs, (if (if n ≤ idx - v.tdiv 2 + v then n - v else idx - v.tdiv 2) < 0 then 0
        else if n ≤ idx - v.tdiv 2 + v then n - v else idx - v.tdiv 2) = offs ∧
      0 ≤ offs ∧ offs ≤ idx ∧ idx < offs + v ∧ (offs = 0 ∨ offs + v ≤ n) := by
  have hhalf : v.tdiv 2 = v / 2 := Int.tdiv_eq_ediv_of_nonneg (by omega)
  refine ⟨_, rfl, ?_⟩
  rw [hhalf]
  split_ifs <;> omega

/-- The cursor is set to an entry. It is enough that the scroll offset is right when the entry is
shown already. -/
theorem placed_setcur {idx : Int} (hh : w.height = height) (hv : 0 < w.visLines) (h₀ : 0 ≤ idx)
    (h₁ : idx < w.numItems) (hoffs : 0 ≤ w.viewOffs) (hsame : idx = w.cur → Placed height w)
    (hin : w.viewOffs ≤ idx → w.viewOffs = 0 ∨ w.viewOffs + w.visLines ≤ w.numItems) :
    Placed height (w.setcur idx).2 := by
  rw [TuiList.setcur]
  split
  · next heq => exact hsame heq
  rw [if_neg (by omega), if_neg (by omega)]
  dsimp only
  split
  · obtain ⟨offs, heq, hge, hle, hlt, hfull⟩ := centre_offs hv h₀ h₁
    show Placed height { w with
      cur := idx
      viewOffs := if (if w.numItems ≤ idx - w.visLines.tdiv 2 + w.visLines
          then w.numItems - w.visLines else idx - w.visLines.tdiv 2) < 0 then 0
        else if w.numItems ≤ idx - w.visLines.tdiv 2 + w.visLines
          then w.numItems - w.visLines else idx - w.visLines.tdiv 2
      dirty := true }
    rw [heq]
    refine ⟨hh, ?_, hge, fun _ => hle, fun _ => ⟨h₀, h₁, hlt⟩, fun _ => hfull⟩
    show -1 ≤ idx
    omega
  · next hwindow =>
    have hwindow' : w.viewOffs ≤ idx ∧ idx < w.viewOffs + w.visLines := by
      dsimp only [TuiList.visLines] at hwindow ⊢
      omega
    have hfull := hin hwindow'.1
    refine ⟨hh, ?_, hoffs, fun _ => hwindow'.1, fun _ => ⟨h₀, h₁, hwindow'.2⟩, fun _ => hfull⟩
    show -1 ≤ idx
    omega

theorem Placed.setcur {idx : Int} (h : Placed height w) (hv : 0 < w.visLines) (h₀ : 0 ≤ idx) :
    Placed height (w.setcur idx).2 := by
  by_cases h₁ : idx < w.numItems
  · exact placed_setcur h.height_eq hv h₀ h₁ h.offs_nonneg (fun _ => h)
      fun _ => h.full (by omega)
  · rw [TuiList.setcur]
    split
    · exact h
    · rw [if_neg (by omega), if_pos (by omega)]
      exact h

theorem foldl_add_frame (texts : List Bytes) (w : TuiList) :
    (texts.foldl (fun w text => w.add text) w).height = w.height ∧
      (texts.foldl (fun w text => w.add text) w).cur = w.cur ∧
      (texts.foldl (fun w text => w.add text) w).viewOffs = w.viewOffs := by
  induction texts generalizing w with
  | nil => exact ⟨rfl, rfl, rfl⟩
  | cons text texts ih => exact ih (w.add text)

/-- **Filling the list again**, whatever it held. -/
theorem Placed.refresh (h : Placed height w) (hv : 0 < w.visLines) (texts : List Bytes) :
    Placed height (w.refresh texts) := by
  obtain ⟨hheight, hcur, hoffs⟩ := foldl_add_frame texts w.clear
  rw [TuiList.refresh]
  generalize texts.foldl (fun w text => w.add text) w.clear = w' at hheight hcur hoffs ⊢
  have hcur' : w'.cur = w.cur := hcur
  have hoffs' : w'.viewOffs = w.viewOffs := hoffs
  have hheight' : w'.height = w.height := hheight
  have hv' : 0 < w'.visLines := by
    rw [TuiList.visLines, hheight']
    exact hv
  have hge := h.offs_nonneg
  have hle := h.offs_le
  by_cases hn : 0 < w'.numItems
  · refine placed_setcur (hheight'.trans h.height_eq) hv' le_rfl hn (by omega) (fun hzero => ?_)
      fun _ => by omega
    exact ⟨hheight'.trans h.height_eq, by omega, by omega, by omega, by omega, by omega⟩
  · have hplaced : Placed height w' :=
      ⟨hheight'.trans h.height_eq, hcur'.symm ▸ h.cur_ge, by omega, by omega, by omega, by omega⟩
    exact hplaced.setcur hv' le_rfl

theorem Placed.visLines_pos (h : Placed height w) (hh : 3 ≤ height) : 0 < w.visLines := by
  rw [TuiList.visLines, h.height_eq]
  omega

theorem Placed.step (h : Placed height w) (hh : 3 ≤ height) (op : PaneOp) :
    Placed height (w.stepPane op) := by
  have hv := h.visLines_pos hh
  have hcur := h.cur_ge
  cases op with
  | refresh texts => exact h.refresh hv texts
  | up => exact h.curPrev hv
  | down => exact h.curNext hv
  | left => exact h.curStart hv
  | right => exact h.curEnd hv
  | pgup =>
    show Placed height (Ui.pageUp w)
    rw [Ui.pageUp]
    split
    · exact h.curStart hv
    · exact h.setcur hv (by omega)
  | pgdn =>
    show Placed height (Ui.pageDown w)
    rw [Ui.pageDown]
    split
    · exact h.curEnd hv
    · exact h.setcur hv (by omega)

end Step

end TuiList

/-- **Every draw of a pane.** Whatever a list of three lines or more is filled with, one filling
after the other, and whichever cursor keys are pressed in between, `draw_list` reads only entries of
the array, and the cursor is on an entry that is drawn as long as there is one. -/
theorem drawable_runPane (title : Bytes) {height : Int} (h : 3 ≤ height) (ops : List PaneOp) :
    ((TuiList.new title height).runPane ops).Drawable := by
  have hplaced : TuiList.Placed height ((TuiList.new title height).runPane ops) := by
    induction ops using List.reverseRecOn with
    | nil => exact TuiList.placed_new title height
    | append_singleton ops op ih =>
      rw [TuiList.runPane_append_singleton]
      exact ih.step h op
  exact hplaced.drawable

theorem drawable_runPane_local :
    ((TuiList.new [] 21).runPane [.refresh [[1], [2]], .right, .refresh [], .up]).Drawable :=
  drawable_runPane [] (by decide) _

/-! ### The cursor as the callers see it -/

namespace TuiList

/-- **`tui_get_list_cur` can be relied on**: it is `-1`, or an index of the entries. -/
def Standing (w : TuiList) : Prop := w.cur = -1 ∨ 0 ≤ w.cur ∧ w.cur < w.numItems

end TuiList

/-- The operation does not leave the cursor behind: entries are taken away only when it is on none,
and it is set to the first entry only when there is one. -/
def ListOp.KeepsCursor (w : TuiList) : ListOp → Prop
  | .clear => w.cur = -1
  | .curStart => w.entries ≠ []
  | _ => True

namespace TuiList

variable {w : TuiList}

theorem standing_toggleSel (h : w.Standing) (idx : ℕ) : (w.toggleSel idx).2.Standing := by
  rw [toggleSel]
  split
  · exact h
  · rw [Standing, numItems] at *
    dsimp only
    rw [List.length_set]
    exact h

theorem standing_setcur (h : w.Standing) (idx : Int) : (w.setcur idx).2.Standing := by
  by_cases hneg : idx < 0
  · rw [setcur]
    split
    · exact h
    · exact .inl rfl
  · have hitems : (w.setcur idx).2.numItems = w.numItems :=
      congrArg (fun es : List ListEntry => (es.length : Int)) (setcur_frame idx).1
    rw [Standing, cur_setcur w (not_lt.mp hneg), hitems]
    split
    · next hlt => exact .inr ⟨not_lt.mp hneg, hlt⟩
    · exact h

theorem standing_curNext (h : w.Standing) : w.curNext.2.Standing := by
  rw [Standing] at h
  rw [curNext]
  split
  · exact h
  · have hstep : w.cur + 1 = -1 ∨ 0 ≤ w.cur + 1 ∧ w.cur + 1 < w.numItems := by omega
    dsimp only
    split <;> exact hstep

theorem standing_curPrev (h : w.Standing) : w.curPrev.2.Standing := by
  rw [Standing] at h
  rw [curPrev]
  split
  · exact h
  · have hstep : w.cur - 1 = -1 ∨ 0 ≤ w.cur - 1 ∧ w.cur - 1 < w.numItems := by omega
    dsimp only
    split <;> exact hstep

theorem standing_curStart : w.curStart.2.Standing ↔ w.entries ≠ [] := by
  rw [← List.length_pos_iff]
  show (0 : Int) = -1 ∨ (0 : Int) ≤ 0 ∧ 0 < (w.entries.length : Int) ↔ _
  omega

theorem standing_curEnd : w.curEnd.2.Standing := by
  have hn : 0 ≤ w.numItems := Int.natCast_nonneg _
  show w.numItems - 1 = -1 ∨ 0 ≤ w.numItems - 1 ∧ w.numItems - 1 < w.numItems
  omega

theorem standing_clear : w.clear.Standing ↔ w.cur = -1 := by
  show w.cur = -1 ∨ 0 ≤ w.cur ∧ w.cur < ((0 : ℕ) : Int) ↔ _
  omega

/-- **One operation** leaves a cursor that can be relied on if and only if it keeps it. -/
theorem standing_step_iff (h : w.Standing) (op : ListOp) :
    (w.step op).Standing ↔ op.KeepsCursor w := by
  cases op with
  | clear => exact standing_clear
  | add text =>
    refine iff_of_true ?_ trivial
    rw [Standing, numItems] at h
    show w.cur = -1 ∨ 0 ≤ w.cur ∧ w.cur < (w.add text).numItems
    rw [numItems, add, List.length_append, List.length_singleton]
    omega
  | toggle idx => exact iff_of_true (standing_toggleSel h idx) trivial
  | setcur idx => exact iff_of_true (standing_setcur h idx) trivial
  | curNext => exact iff_of_true (standing_curNext h) trivial
  | curPrev => exact iff_of_true (standing_curPrev h) trivial
  | curStart => exact standing_curStart
  | curEnd => exact iff_of_true standing_curEnd trivial

end TuiList

/-- **The cursor over a run.** In a run from a new list, the cursor is `-1` or on an entry at every
moment if and only if no operation leaves it behind. -/
theorem standing_run_iff (title : Bytes) (height : Int) (ops : List ListOp) :
    (∀ past, past <+: ops → ((TuiList.new title height).run past).Standing) ↔
      ∀ past op, past ++ [op] <+: ops → op.KeepsCursor ((TuiList.new title height).run past) := by
  constructor
  · intro h past op hpast
    have hbefore := h past ((List.prefix_append past [op]).trans hpast)
    have hafter := h _ hpast
    rw [TuiList.run_append_singleton] at hafter
    exact (TuiList.standing_step_iff hbefore op).mp hafter
  · intro h past hpast
    induction past using List.reverseRecOn with
    | nil => exact .inl rfl
    | append_singleton past op ih =>
      rw [TuiList.run_append_singleton]
      have hbefore := ih ((List.prefix_append past [op]).trans hpast)
      exact (TuiList.standing_step_iff hbefore op).mpr (h past op hpast)

/-- A list is cleared with the cursor on its entry. -/
theorem not_standing_cleared :
    ¬((TuiList.new [] 21).run [.add [1], .setcur 0, .clear]).Standing := by
  rintro (hnone | ⟨-, hlt⟩)
  · exact absurd hnone (by decide)
  · exact absurd hlt (by decide)

end Visftp
