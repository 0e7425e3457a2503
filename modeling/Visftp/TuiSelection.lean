import Mathlib.Data.List.Basic
import Visftp.TuiList

/-!
# The selection of a list

`num_sel` counts the selected entries one at a time, as they are selected and deselected, and
`tui_list_get_sel` gives it out as the number of slots it has filled. `tui_clear_list` takes all
entries away and leaves `num_sel` as it is. So the count is right as long as the list is never
cleared while an entry is selected, and once it has been, `act_transfer` and `act_delete` read
slots of their array that were never filled.

## Main results

* `getSel_of_counts` — what `tui_list_get_sel` gives when the count is right
* `counts_run_iff` — the runs in which the count is right throughout
-/

namespace Visftp

namespace TuiList

/-- The indices of the selected entries. -/
def selected (w : TuiList) : List ℕ := w.entries.findIdxs ListEntry.sel

/-- Of an array of which `r.2` slots are filled, `r.1` slots are used, and they are among them. -/
def UsesFilled (r : Int × List Int) : Prop := ∀ i : ℕ, (i : Int) < r.1 → i < r.2.length

/-- **The count is right**, and what is made of it: `tui_list_get_sel` with room for all entries
fills the slots with the selected indices and gives their number, and neither `act_transfer` nor
`act_delete` uses a slot that is not filled. -/
structure Counts (w : TuiList) : Prop where
  numSel_eq : w.numSel = w.entries.countP ListEntry.sel
  getSel_eq : w.getSel w.numItems = ((w.selected.length : Int), w.selected)
  transfer : UsesFilled w.transferSel
  delete : UsesFilled w.deleteSel

/-! ### `tui_list_get_sel` -/

theorem fillSel_eq {es : List ListEntry} {i : ℕ} {maxsel : Int} (h : es.length ≤ maxsel) :
    fillSel es i maxsel = es.findIdxs ListEntry.sel i := by
  induction es generalizing i maxsel with
  | nil => rfl
  | cons e es ih =>
    rw [List.length_cons, Nat.cast_succ] at h
    rw [fillSel, if_neg (by omega), List.findIdxs_cons]
    split_ifs
    · rw [ih (by omega)]
    · rw [ih (by omega)]

theorem getSel_snd (w : TuiList) : (w.getSel w.numItems).2 = w.selected := fillSel_eq le_rfl

theorem length_selected (w : TuiList) : w.selected.length = w.entries.countP ListEntry.sel :=
  List.length_findIdxs

theorem transferSel_eq (w : TuiList) : w.transferSel =
    if w.numSel = 0 then (1, w.cur :: (w.selected.map fun i : ℕ => (i : Int)).tail)
    else (w.numSel, w.selected.map fun i : ℕ => (i : Int)) := by
  rw [transferSel, getSel_snd]
  rfl

theorem deleteSel_eq (w : TuiList) : w.deleteSel =
    if w.numSel = 0 then
      (if w.cur ≠ -1 then 1 else w.numSel, w.cur :: (w.selected.map fun i : ℕ => (i : Int)).tail)
    else (w.numSel, w.selected.map fun i : ℕ => (i : Int)) := by
  rw [deleteSel, getSel_snd]
  rfl

/-- A right count is all that is needed. -/
theorem Counts.of_numSel {w : TuiList} (h : w.numSel = w.entries.countP ListEntry.sel) :
    w.Counts := by
  have hlen : (w.selected.length : Int) = w.numSel := by rw [length_selected, h]
  have hfill : UsesFilled (w.numSel, w.selected.map fun i : ℕ => (i : Int)) := by
    intro i hi
    dsimp only at hi
    rw [List.length_map]
    omega
  refine ⟨h, Prod.ext hlen.symm (getSel_snd w), ?_, ?_⟩
  · rw [transferSel_eq]
    split_ifs
    · intro i hi
      dsimp only at hi
      rw [List.length_cons]
      omega
    · exact hfill
  · rw [deleteSel_eq]
    split_ifs
    · intro i hi
      dsimp only at hi
      rw [List.length_cons]
      omega
    · intro i hi
      dsimp only at hi
      omega
    · exact hfill

/-! ### Steps -/

section Step

variable {w : TuiList}

/-- The cursor moves without touching entries or count. -/
theorem setcur_frame (idx : Int) :
    (w.setcur idx).2.entries = w.entries ∧ (w.setcur idx).2.numSel = w.numSel := by
  rw [setcur]
  dsimp only
  split_ifs <;> exact ⟨rfl, rfl⟩

/-- Where the cursor is set, unless that is past the end. -/
theorem cur_setcur (w : TuiList) {idx : Int} (h : 0 ≤ idx) :
    (w.setcur idx).2.cur = if idx < w.numItems then idx else w.cur := by
  rw [setcur]
  split
  · next heq =>
    subst heq
    split <;> rfl
  rw [if_neg (by omega)]
  split
  · next hlarge => rw [if_neg (by omega)]
  · rw [if_pos (by omega)]
    dsimp only
    split <;> rfl

theorem curNext_frame : w.curNext.2.entries = w.entries ∧ w.curNext.2.numSel = w.numSel := by
  rw [curNext]
  dsimp only
  split_ifs <;> exact ⟨rfl, rfl⟩

theorem curPrev_frame : w.curPrev.2.entries = w.entries ∧ w.curPrev.2.numSel = w.numSel := by
  rw [curPrev]
  dsimp only
  split_ifs <;> exact ⟨rfl, rfl⟩

theorem counts_toggleSel (idx : ℕ) (h : w.numSel = w.entries.countP ListEntry.sel) :
    (w.toggleSel idx).2.numSel = (w.toggleSel idx).2.entries.countP ListEntry.sel := by
  rw [toggleSel]
  split
  · exact h
  · next e he =>
    obtain ⟨hidx, hget⟩ := List.getElem?_eq_some_iff.mp he
    dsimp only
    rw [List.countP_set hidx, hget]
    cases hsel : e.sel with
    | false =>
      simp
      omega
    | true =>
      -- an entry was selected, so the count is positive
      have hpos : 0 < w.entries.countP ListEntry.sel :=
        List.countP_pos_iff.mpr ⟨e, hget ▸ List.getElem_mem hidx, hsel⟩
      have hcount : (0 : Int) < w.numSel := by omega
      simp [hcount]
      omega

/-- Every operation but clearing keeps the count right. -/
theorem counts_step {op : ListOp} (h : w.numSel = w.entries.countP ListEntry.sel)
    (hop : op = .clear → w.selected = []) :
    (w.step op).numSel = (w.step op).entries.countP ListEntry.sel := by
  cases op with
  | clear =>
    have hnone := length_selected w
    rw [hop rfl, List.length_nil] at hnone
    rw [← hnone] at h
    exact h
  | add text => simp [step, add, h]
  | toggle idx => exact counts_toggleSel idx h
  | setcur idx =>
    obtain ⟨hentries, hnum⟩ := setcur_frame (w := w) idx
    rwa [step, hentries, hnum]
  | curNext =>
    obtain ⟨hentries, hnum⟩ := curNext_frame (w := w)
    rwa [step, hentries, hnum]
  | curPrev =>
    obtain ⟨hentries, hnum⟩ := curPrev_frame (w := w)
    rwa [step, hentries, hnum]
  | curStart => exact h
  | curEnd => exact h

/-- The count is wrong once the list has been cleared with an entry selected. -/
theorem selected_eq_nil_of_clear (h : w.numSel = w.entries.countP ListEntry.sel)
    (hclear : (w.step .clear).numSel = (w.step .clear).entries.countP ListEntry.sel) :
    w.selected = [] := by
  have hzero : w.numSel = 0 := hclear
  refine List.eq_nil_of_length_eq_zero ?_
  rw [length_selected]
  omega

end Step

end TuiList

/-! ### Runs -/

/-- **The count over a run.** In a run from a new list, the count of the selected entries, and what
is made of it, is right at every moment if and only if the list is never cleared while an entry is
selected. -/
theorem counts_run_iff (title : Bytes) (height : Int) (ops : List ListOp) :
    (∀ past, past <+: ops → ((TuiList.new title height).run past).Counts) ↔
      ∀ past, past ++ [.clear] <+: ops → ((TuiList.new title height).run past).selected = [] := by
  constructor
  · intro h past hpast
    have hclear := (h _ hpast).numSel_eq
    rw [TuiList.run_append_singleton] at hclear
    have hbefore := (h past ((List.prefix_append past [.clear]).trans hpast)).numSel_eq
    exact TuiList.selected_eq_nil_of_clear hbefore hclear
  · intro h past hpast
    refine TuiList.Counts.of_numSel ?_
    induction past using List.reverseRecOn with
    | nil => rfl
    | append_singleton past op ih =>
      rw [TuiList.run_append_singleton]
      refine TuiList.counts_step (ih ((List.prefix_append past [op]).trans hpast)) ?_
      rintro rfl
      exact h past hpast

/-- Selecting one of two entries, clearing the list and refilling it: nothing is selected, and one
slot is used without having been filled. -/
theorem not_counts_refilled : ¬((TuiList.new [] 21).run [.add (CString.ascii "a"),
    .add (CString.ascii "b"), .toggle 0, .clear, .add (CString.ascii "c")]).Counts :=
  fun hcounts => absurd hcounts.numSel_eq (by decide)

end Visftp
