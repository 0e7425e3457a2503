import Mathlib.Data.List.Induction
import Mathlib.Tactic.FinCases
import Visftp.Viewer

/-!
# Scrolling the viewer

`view_update` draws as many rows as there are lines, at most `21`, from `vscroll` on. So a full
page has to be left below `vscroll`, or all lines if they are fewer. The keys Home, End, Up and
Page Up leave it so. Down stops only at the last line, Page Down jumps to the end only when it
would leave the file, and `view_memopen` keeps the `vscroll` of the file before.

## Main definitions

* `ViewOp`, `Viewer.run` — runs of the viewer
* `Viewer.InRange` — what is drawn next is there
* `ViewOp.Fits` — the steps that keep a page below `vscroll`

## Main results

* `inRange_run_iff` — a run draws what is there at every moment iff its steps fit
-/

namespace Visftp

open CString

/-- What the program does with the viewer. -/
inductive ViewOp
  /-- `view_memopen` -/
  | memopen (name : Bytes) (start : Option Bytes)
  /-- `view_input`, which is called while a file is open. -/
  | input (key : ViewKey)
  /-- `view_update`, which is called while a file is open. -/
  | update
  deriving DecidableEq, Repr

/-- One step. -/
def Viewer.step (v : Viewer) : ViewOp → Viewer
  | .memopen name start => viewMemopen name start v
  | .input key => if v.isOpen then viewInput key v else v
  | .update => if v.isOpen then (viewUpdate v).2 else v

/-- The steps of a run, one after the other. -/
def Viewer.run (v : Viewer) (ops : List ViewOp) : Viewer := ops.foldl Viewer.step v

/-- **`view_update` reads inside the array**, if it is called now. -/
def Viewer.InRange (v : Viewer) : Prop :=
  v.isOpen = true → ∀ k ∈ viewReads v, 0 ≤ k ∧ k < v.size

instance (v : Viewer) : Decidable v.InRange := by unfold Viewer.InRange; infer_instance

/-- A page is left from `vscroll` on. -/
def Viewer.Page (v : Viewer) : Prop :=
  0 ≤ v.vscroll ∧ (v.vscroll = 0 ∨ v.size = 0 ∨ v.vscroll + 21 ≤ v.size)

/-- **The steps that leave a page below `vscroll`**: a file is opened at its beginning, or where a
page of it is left, or without a line; Down does not scroll into the last page; and Page Down
leaves a page or goes to the end. -/
def ViewOp.Fits (v : Viewer) : ViewOp → Prop
  | .memopen _ start =>
    start ≠ none → v.vscroll = 0 ∨ scanSpans (start.getD []) 0 0 = [] ∨
      v.vscroll + 21 ≤ (scanSpans (start.getD []) 0 0).length
  | .input .down => v.isOpen = true → v.vscroll < v.size - 1 → v.vscroll + 22 ≤ v.size
  | .input .pgdn => v.isOpen = true → v.vscroll + 22 < v.size → v.vscroll + 43 ≤ v.size
  | _ => True

section Page

variable {v : Viewer}

@[simp] theorem viewReads_of_dirty (h : v.dirtyText = true) :
    viewReads v = (List.range (min v.lines.length 21)).map fun i : ℕ => v.vscroll + i := by
  simp [viewReads, h, numVislines]

/-- With a page below `vscroll`, everything that is drawn is there. -/
theorem Viewer.Page.inRange (h : v.Page) : v.InRange := by
  obtain ⟨hpos, hpage⟩ := h
  intro _ k hk
  rw [viewReads] at hk
  split_ifs at hk
  · obtain ⟨i, hi, rfl⟩ := List.mem_map.mp hk
    have hlt : i < min v.lines.length 21 := List.mem_range.mp hi
    rw [Viewer.size] at hpage ⊢
    omega
  · simp at hk

/-- When the text is drawn, what is drawn is there only if there is a page below `vscroll`. -/
theorem Viewer.InRange.page (h : v.InRange) (hopen : v.isOpen = true) (hdirty : v.dirtyText = true)
    (hpos : 0 ≤ v.vscroll) : v.Page := by
  refine ⟨hpos, ?_⟩
  by_contra hpage
  have hreads := h hopen
  rw [viewReads_of_dirty hdirty] at hreads
  rw [Viewer.size] at hreads hpage
  -- the last row
  have hlast := hreads (v.vscroll + ((min v.lines.length 21 - 1 : ℕ) : Int)) <| by
    refine List.mem_map.mpr ⟨_, List.mem_range.mpr ?_, rfl⟩
    omega
  omega

end Page

/-! ### Steps -/

section Step

variable {v : Viewer} {key : ViewKey}

theorem size_viewInput (h : key ≠ .quit) : (viewInput key v).size = v.size := by
  cases key with
  | quit => exact absurd rfl h
  | pgdn =>
    rw [viewInput]
    dsimp only
    split_ifs <;> rfl
  | _ => rfl

theorem isOpen_viewInput (h : key ≠ .quit) : (viewInput key v).isOpen = v.isOpen := by
  cases key with
  | quit => exact absurd rfl h
  | pgdn =>
    rw [viewInput]
    dsimp only
    split_ifs <;> rfl
  | _ => rfl

theorem vscroll_down : (viewInput .down v).vscroll =
    if v.vscroll < v.size - 1 then v.vscroll + 1 else v.vscroll := rfl

theorem vscroll_up : (viewInput .up v).vscroll =
    if 0 < v.vscroll then v.vscroll - 1 else v.vscroll := rfl

theorem vscroll_pgup : (viewInput .pgup v).vscroll = max 0 (v.vscroll - 22) := rfl

theorem vscroll_fin : (viewInput .fin v).vscroll = max 0 (v.size - 22 + 1) := rfl

theorem vscroll_pgdn : (viewInput .pgdn v).vscroll =
    if v.size ≤ v.vscroll + 22 then max 0 (v.size - 22 + 1) else v.vscroll + 22 := by
  have hsize : ∀ k : Int, Viewer.size { v with vscroll := k } = v.size := fun _ => rfl
  rw [viewInput]
  simp only [hsize, numVislines, Nat.cast_ofNat]
  split_ifs <;> rfl

/-- The keys that do not scroll. -/
theorem vscroll_of_still (h : key ∈ [ViewKey.quit, .redraw, .left, .right, .other]) :
    (viewInput key v).vscroll = v.vscroll := by
  fin_cases h <;> rfl

/-- `vscroll` is never negative. -/
theorem vscroll_viewInput_nonneg (h : 0 ≤ v.vscroll) : 0 ≤ (viewInput key v).vscroll := by
  cases key with
  | home => exact le_rfl
  | fin => exact le_max_left _ _
  | pgup => exact le_max_left _ _
  | pgdn =>
    rw [vscroll_pgdn]
    split_ifs <;> omega
  | up =>
    rw [vscroll_up]
    split_ifs <;> omega
  | down =>
    rw [vscroll_down]
    split_ifs <;> omega
  | _ => rwa [vscroll_of_still (by simp)]

/-- A key that fits keeps a page. -/
theorem viewInput_page (hopen : v.isOpen = true) (h : v.Page)
    (hfits : (ViewOp.input key).Fits v) : (viewInput key v).Page := by
  obtain ⟨hpos, hpage⟩ := h
  refine ⟨vscroll_viewInput_nonneg hpos, ?_⟩
  by_cases hquit : key = .quit
  · subst hquit
    exact .inr (.inl rfl)
  rw [size_viewInput hquit]
  cases key with
  | home => exact .inl rfl
  | fin =>
    rw [vscroll_fin]
    omega
  | pgup =>
    rw [vscroll_pgup]
    omega
  | pgdn =>
    have hfits := hfits hopen
    rw [vscroll_pgdn]
    split_ifs <;> omega
  | up =>
    rw [vscroll_up]
    split_ifs <;> omega
  | down =>
    have hfits := hfits hopen
    rw [vscroll_down]
    split_ifs <;> omega
  | _ => rwa [vscroll_of_still (by simp)]

theorem step_input (hopen : v.isOpen = true) : v.step (.input key) = viewInput key v :=
  if_pos hopen

theorem step_of_closed (hopen : v.isOpen = false) : v.step (.input key) = v :=
  if_neg (by simp [hopen])

theorem step_update : (v.step .update).vscroll = v.vscroll ∧ (v.step .update).size = v.size := by
  unfold Viewer.step
  dsimp only
  split_ifs
  · exact ⟨rfl, rfl⟩
  · exact ⟨rfl, rfl⟩

theorem step_page {op : ViewOp} (h : v.Page) (hfits : op.Fits v) : (v.step op).Page := by
  cases op with
  | memopen name start =>
    refine ⟨h.1, ?_⟩
    cases start with
    | none => exact .inr (.inl rfl)
    | some content =>
      refine (hfits (by simp)).imp_right (Or.imp_left fun hnil => ?_)
      change ((scanSpans content 0 0).length : Int) = 0
      rw [show scanSpans content 0 0 = [] from hnil]
      rfl
  | input key =>
    by_cases hopen : v.isOpen = true
    · rw [step_input hopen]
      exact viewInput_page hopen h hfits
    · rwa [step_of_closed (by simpa using hopen)]
  | update =>
    obtain ⟨hscroll, hsize⟩ := step_update (v := v)
    rwa [Viewer.Page, hscroll, hsize]

theorem step_vscroll {op : ViewOp} (h : 0 ≤ v.vscroll) : 0 ≤ (v.step op).vscroll := by
  cases op with
  | memopen => exact h
  | input key =>
    by_cases hopen : v.isOpen = true
    · rw [step_input hopen]
      exact vscroll_viewInput_nonneg h
    · rwa [step_of_closed (by simpa using hopen)]
  | update => rwa [step_update.1]

/-- A step that does not fit is followed by a drawing that reads past the array. -/
theorem fits_of_inRange {op : ViewOp} (hpos : 0 ≤ v.vscroll) (h : (v.step op).InRange) :
    op.Fits v := by
  have hpos' : 0 ≤ (v.step op).vscroll := step_vscroll hpos
  cases op with
  | memopen name start =>
    intro hstart
    have hopen : (v.step (.memopen name start)).isOpen = true :=
      Option.isSome_iff_ne_none.mpr hstart
    obtain ⟨-, hpage⟩ := h.page hopen rfl hpos'
    refine hpage.imp_right (Or.imp_left fun hnil => ?_)
    exact List.eq_nil_of_length_eq_zero (Int.ofNat_eq_zero.mp hnil)
  | update => exact trivial
  | input key =>
    by_cases hkey : key = .down ∨ key = .pgdn
    · -- the text is drawn anew after these keys
      have hdirty : (viewInput key v).dirtyText = true := by rcases hkey with rfl | rfl <;> rfl
      have hquit : key ≠ .quit := by rintro rfl; simp at hkey
      have hpage : v.isOpen = true → (viewInput key v).vscroll = 0 ∨ v.size = 0 ∨
          (viewInput key v).vscroll + 21 ≤ v.size := by
        intro hopen
        rw [step_input hopen] at h hpos'
        have hpage := (h.page (by rwa [isOpen_viewInput hquit]) hdirty hpos').2
        rwa [size_viewInput hquit] at hpage
      rcases hkey with rfl | rfl
      · intro hopen hlt
        have hpage := hpage hopen
        rw [vscroll_down, if_pos hlt] at hpage
        omega
      · intro hopen hlt
        have hpage := hpage hopen
        rw [vscroll_pgdn, if_neg (by omega)] at hpage
        omega
    · cases key with
      | down => simp at hkey
      | pgdn => simp at hkey
      | _ => exact trivial

end Step

/-! ### Runs -/

@[simp] theorem run_viewer_append_singleton (v : Viewer) (ops : List ViewOp) (op : ViewOp) :
    v.run (ops ++ [op]) = (v.run ops).step op := by
  simp [Viewer.run]

theorem run_vscroll (ops : List ViewOp) : 0 ≤ (Viewer.init.run ops).vscroll := by
  induction ops using List.reverseRecOn with
  | nil => exact le_rfl
  | append_singleton ops op ih =>
    rw [run_viewer_append_singleton]
    exact step_vscroll ih

/-- **Drawing inside the file.** In a run of the viewer, with any files and keys, `view_update`
reads only lines of the open file, whenever it is called, if and only if every step leaves a page
below `vscroll`. -/
theorem inRange_run_iff (ops : List ViewOp) :
    (∀ past, past <+: ops → (Viewer.init.run past).InRange) ↔
      ∀ past op, past ++ [op] <+: ops → op.Fits (Viewer.init.run past) := by
  constructor
  · intro h past op hpast
    have hrange := h _ hpast
    rw [run_viewer_append_singleton] at hrange
    exact fits_of_inRange (run_vscroll past) hrange
  · intro h past hpast
    refine Viewer.Page.inRange ?_
    induction past using List.reverseRecOn with
    | nil => exact ⟨le_rfl, .inl rfl⟩
    | append_singleton past op ih =>
      rw [run_viewer_append_singleton]
      exact step_page (ih ((List.prefix_append past [op]).trans hpast)) (h past op hpast)

/-- A file of two lines and the key Down: the line behind the second one is drawn. -/
theorem not_inRange_down : ¬(Viewer.init.run
    [.memopen (ascii "f") (some (ascii "a\nb\n")), .input .down]).InRange := by
  decide

end Visftp
