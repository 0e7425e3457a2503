import Visftp.Repainting
import Visftp.ViewerDrawing

/-!
# The screen shows the lists

`updateui` draws what is flagged and nothing else, and leaves the same screen as if it drew
everything (`screen_run`), whatever was drawn before: lists that have scrolled, other directories,
the viewer.

The first row is an exception to it in part. Texts that are too long for it go on in the lists
(`Display.Fits` excludes them), and the half for the transfer is not cleared under its text.

## Main definitions

* `screenWord` — what the screen is to show

## Main results

* `Display.Sound.step` — a step of the main loop keeps the invariant
* `screen_run` — the screen after `updateui`, in every run
-/

namespace Visftp

open CString

/-! ### The end of a round -/

namespace Ui

variable {s : Ui}

/-- What `updateui` does apart from the lists. -/
structure Refilled (s s' : Ui) : Prop where
  focus : s'.focus = s.focus
  status : s'.world.ftp.status = s.world.ftp.status
  xfers : s'.world.xfers = s.world.xfers
  nxfer : s'.world.nxfer = s.world.nxfer
  viewer : s'.world.app.viewer = s.world.app.viewer
  placed : (∀ p, (s.uilist p).Placed 21) → ∀ p, (s'.uilist p).Placed 21

theorem Refilled.trans {s₁ s₂ s₃ : Ui} (h : Refilled s₁ s₂) (h' : Refilled s₂ s₃) :
    Refilled s₁ s₃ where
  focus := h'.focus.trans h.focus
  status := h'.status.trans h.status
  xfers := h'.xfers.trans h.xfers
  nxfer := h'.nxfer.trans h.nxfer
  viewer := h'.viewer.trans h.viewer
  placed hp := h'.placed (h.placed hp)

/-- A list is changed. -/
theorem placed_mapList {p : Pane} {f : TuiList → TuiList}
    (hf : (s.uilist p).Placed 21 → (f (s.uilist p)).Placed 21) (hp : ∀ q, (s.uilist q).Placed 21)
    (q : Pane) : ((s.mapList p f).uilist q).Placed 21 := by
  rw [mapList]
  dsimp only
  rw [Function.update_apply]
  split
  · exact hf (hp p)
  · exact hp q

theorem refilled_updateTitle (s : Ui) : Refilled s s.updateTitle := by
  rw [updateTitle]
  split
  · split
    · exact ⟨rfl, rfl, rfl, rfl, rfl, placed_mapList fun h => h.congr rfl rfl rfl rfl⟩
    · exact ⟨rfl, rfl, rfl, rfl, rfl, id⟩
  · exact ⟨rfl, rfl, rfl, rfl, rfl, id⟩

theorem refilled_updateRemote (s : Ui) : Refilled s s.updateRemote := by
  rw [updateRemote]
  split
  · exact ⟨rfl, rfl, rfl, rfl, rfl, placed_mapList fun h => h.fill (by decide) _⟩
  · exact ⟨rfl, rfl, rfl, rfl, rfl, id⟩

theorem refilled_updateLocal (s : Ui) : Refilled s s.updateLocal := by
  rw [updateLocal]
  split
  · refine ⟨rfl, rfl, rfl, rfl, rfl, fun hp q => ?_⟩
    refine placed_mapList (s := s) (p := .localdir) (f := fun w =>
      { TuiList.fill s.world.app.localdir w with title := s.world.app.curdir }) (fun h => ?_) hp q
    exact (h.fill (by decide) _).congr rfl rfl rfl rfl
  · exact ⟨rfl, rfl, rfl, rfl, rfl, id⟩

theorem refilled_updateui (s : Ui) : Refilled s s.updateui :=
  ((refilled_updateTitle s).trans (refilled_updateRemote _)).trans (refilled_updateLocal _)

/-- The remote part does not touch the local list. -/
theorem updateTitle_localdir (s : Ui) : s.updateTitle.uilist .localdir = s.uilist .localdir ∧
    s.updateTitle.world.app = s.world.app := by
  rw [updateTitle]
  split
  · split <;> exact ⟨rfl, rfl⟩
  · exact ⟨rfl, rfl⟩

theorem updateRemote_localdir (s : Ui) : s.updateRemote.uilist .localdir = s.uilist .localdir ∧
    s.updateRemote.world.app = s.world.app := by
  rw [updateRemote]
  split <;> exact ⟨rfl, rfl⟩

/-- The local part does not touch the remote list. -/
theorem updateLocal_remote (s : Ui) : s.updateLocal.uilist .remote = s.uilist .remote := by
  rw [updateLocal]
  split <;> rfl

end Ui

namespace Display

variable {d : Display} {i j : Int} {p q : Pane} {due : Bool}

/-- The list of the remote pane changes only when it is due. -/
theorem uilist_remote (h : d.remoteDue = false) :
    d.ui.updateui.uilist .remote = d.ui.uilist .remote := by
  have hnot : ¬((∃ remdir ∈ d.ui.world.ftp.curdir, (d.ui.uilist .remote).title ≠ remdir) ∨
      d.ui.world.ftp.modified) := of_decide_eq_false h
  obtain ⟨htitle, hmodified⟩ := not_or.mp hnot
  have hsame : d.ui.updateTitle = d.ui := by
    rw [Ui.updateTitle]
    split
    · next remdir hdir => exact if_neg fun hne => htitle ⟨remdir, hdir, hne⟩
    · rfl
  have hsame' : d.ui.updateRemote = d.ui := if_neg hmodified
  rw [Ui.updateui, hsame, hsame', Ui.updateLocal_remote]

/-- So does that of the local pane. -/
theorem uilist_localdir (h : d.localDue = false) :
    d.ui.updateui.uilist .localdir = d.ui.uilist .localdir := by
  have hnot : ¬(d.ui.world.app.localModified ∨
      (d.ui.uilist .localdir).title ≠ d.ui.world.app.curdir) := of_decide_eq_false h
  obtain ⟨hlist, happ⟩ := Ui.updateTitle_localdir d.ui
  obtain ⟨hlist', happ'⟩ := Ui.updateRemote_localdir d.ui.updateTitle
  have hsame : d.ui.updateTitle.updateRemote.updateLocal = d.ui.updateTitle.updateRemote := by
    refine if_neg ?_
    rw [hlist', happ', hlist, happ]
    exact hnot
  rw [Ui.updateui, hsame, hlist', hlist]

@[simp] theorem world_drawPane : (d.drawPane p due).ui.world = d.ui.world := by
  rw [drawPane]
  split <;> rfl

@[simp] theorem focus_drawPane : (d.drawPane p due).ui.focus = d.ui.focus := by
  rw [drawPane]
  split <;> rfl

@[simp] theorem hasFocus_drawPane : (d.drawPane p due).hasFocus = d.hasFocus := by
  rw [drawPane]
  split <;> rfl

@[simp] theorem dirty_drawPane : (d.drawPane p due).dirty = d.dirty := by
  rw [drawPane]
  split <;> rfl

@[simp] theorem optHost_drawPane : (d.drawPane p due).optHost = d.optHost := by
  rw [drawPane]
  split <;> rfl

@[simp] theorem prevStatus_drawPane : (d.drawPane p due).prevStatus = d.prevStatus := by
  rw [drawPane]
  split <;> rfl

@[simp] theorem setup_drawPane : (d.drawPane p due).tg.setup = d.tg.setup := by
  rw [drawPane]
  split
  · exact setup_drawList ..
  · rfl

/-- Drawn or not, the flag of the list is cleared. -/
theorem uilist_drawPane : (d.drawPane p due).ui.uilist q =
    if q = p then { d.ui.uilist p with dirty := false } else d.ui.uilist q := by
  rw [drawPane]
  split
  · exact uilist_mark false p q
  · next hnot =>
    split
    · next heq =>
      subst heq
      have hclean : (d.ui.uilist q).dirty = false := by simpa using (not_or.mp hnot).1
      rw [← hclean]
    · rfl

/-- A list that is drawn covers its pane. -/
theorem drawPane_framebuf (hbg : d.tg.bgchar = 32) (hp : (d.ui.uilist p).Placed 21)
    (hi : 0 ≤ i ∧ i < 80) : (d.drawPane p due).tg.framebuf (cellAt i j) =
      if ((d.ui.uilist p).dirty ∨ due) ∧ (p.left ≤ i ∧ i < p.left + 40) ∧ 1 ≤ j ∧ j < 22 then
        listWord 32 (d.ui.uilist p) 40 (d.hasFocus p) (i - p.left) (j - 1)
      else d.tg.framebuf (cellAt i j) := by
  have hh := hp.height_eq
  have hleft : 0 ≤ p.left ∧ p.left + 40 ≤ 80 := by cases p <;> decide
  rw [drawPane]
  split
  · next hdraw =>
    refine (drawList_framebuf d.tg (d.hasFocus p) hleft (by decide) (by omega) hi).trans ?_
    rw [hbg, hh]
    refine if_congr ?_ rfl rfl
    rw [and_iff_right hdraw]
    rfl
  · next hnot => rw [if_neg fun h => hnot h.1]

/-- The first row and the lists are done, the lists not yet drawn. -/
def refill (d : Display) : Display :=
  { d.drawStatus.drawXfer with ui := d.drawStatus.drawXfer.ui.updateui }

theorem ui_refill : d.refill.ui = d.ui.updateui := by
  rw [refill, drawStatus]
  split <;> rfl

theorem statusDue_eq_false (h : d.statusDue = false) :
    d.ui.world.ftp.status = d.prevStatus ∧ d.dirty.status = false := by
  obtain ⟨hsame, hdirty⟩ := not_or.mp (of_decide_eq_false h)
  exact ⟨not_not.mp hsame, by simpa using hdirty⟩

theorem setup_drawStatus : d.drawStatus.tg.setup = d.tg.setup := by
  rw [drawStatus]
  split <;> rfl

theorem setup_drawXfer : d.drawXfer.tg.setup = d.tg.setup := by
  rw [drawXfer, draw]
  dsimp only
  cases d.curXfer with
  | some x => rfl
  | none =>
    dsimp only
    split <;> rfl

theorem setup_refill : d.refill.tg.setup = d.tg.setup := setup_drawXfer.trans setup_drawStatus

theorem dirty_refill : d.refill.dirty = d.dirty := by
  rw [refill, drawStatus]
  split <;> rfl

theorem hasFocus_refill : d.refill.hasFocus = d.hasFocus := by
  rw [refill, drawStatus]
  split <;> rfl

theorem optHost_refill : d.refill.optHost = d.optHost := by
  rw [refill, drawStatus]
  split <;> rfl

/-- `prev_status` is the status from here on. -/
theorem prevStatus_refill : d.refill.prevStatus = d.ui.world.ftp.status := by
  rw [refill, drawStatus]
  split
  · rfl
  · next hnot => exact (statusDue_eq_false (by simpa only [Bool.not_eq_true] using hnot)).1.symm

/-- Nothing is flagged afterwards. -/
theorem updateui_eq : d.updateui =
    { ((d.refill.drawPane .remote d.remoteDue).drawPane .localdir d.localDue).drawLines with
      dirty := ⟨false, false, false, false⟩ } := by
  rw [updateui]
  dsimp only
  split
  · rfl
  · next hnot =>
    simp only [not_or, Bool.not_eq_true] at hnot
    obtain ⟨hstatus, hxfer, -, -, hconline, hbuttons⟩ := hnot
    have hxfer' : d.dirty.xfer = false := by
      simpa using (not_or.mp (not_or.mp (of_decide_eq_false hxfer)).2).2
    have hnone : d.dirty = ⟨false, false, false, false⟩ := by
      have hflags : d.dirty =
          ⟨d.dirty.status, d.dirty.xfer, d.dirty.conline, d.dirty.buttons⟩ := rfl
      rw [hflags, (statusDue_eq_false hstatus).2, hxfer', hconline, hbuttons]
    have hdirty : ((d.refill.drawPane .remote d.remoteDue).drawPane .localdir
        d.localDue).drawLines.dirty = ⟨false, false, false, false⟩ := by
      show ((d.refill.drawPane .remote d.remoteDue).drawPane .localdir d.localDue).dirty = _
      rw [dirty_drawPane, dirty_drawPane, dirty_refill, hnone]
    rw [← hdirty]
    rfl

theorem world_updateui : d.updateui.ui.world = d.ui.updateui.world := by
  rw [updateui_eq]
  show ((d.refill.drawPane .remote d.remoteDue).drawPane .localdir d.localDue).ui.world = _
  rw [world_drawPane, world_drawPane, ui_refill]

theorem focus_updateui : d.updateui.ui.focus = d.ui.focus := by
  rw [updateui_eq]
  show ((d.refill.drawPane .remote d.remoteDue).drawPane .localdir d.localDue).ui.focus = _
  rw [focus_drawPane, focus_drawPane, ui_refill]
  exact (Ui.refilled_updateui d.ui).focus

theorem hasFocus_updateui : d.updateui.hasFocus = d.hasFocus := by
  rw [updateui_eq]
  show ((d.refill.drawPane .remote d.remoteDue).drawPane .localdir d.localDue).hasFocus = _
  rw [hasFocus_drawPane, hasFocus_drawPane, hasFocus_refill]

theorem optHost_updateui : d.updateui.optHost = d.optHost := by
  rw [updateui_eq]
  show ((d.refill.drawPane .remote d.remoteDue).drawPane .localdir d.localDue).optHost = _
  rw [optHost_drawPane, optHost_drawPane, optHost_refill]

theorem prevStatus_updateui : d.updateui.prevStatus = d.ui.world.ftp.status := by
  rw [updateui_eq]
  show ((d.refill.drawPane .remote d.remoteDue).drawPane .localdir d.localDue).prevStatus = _
  rw [prevStatus_drawPane, prevStatus_drawPane, prevStatus_refill]

theorem setup_updateui : d.updateui.tg.setup = d.tg.setup := by
  rw [updateui_eq]
  exact setup_drawLines.trans (by rw [setup_drawPane, setup_drawPane, setup_refill])

/-- No list is flagged afterwards. -/
theorem uilist_updateui (q : Pane) :
    d.updateui.ui.uilist q = { d.ui.updateui.uilist q with dirty := false } := by
  rw [updateui_eq]
  show ((d.refill.drawPane .remote d.remoteDue).drawPane .localdir d.localDue).ui.uilist q = _
  rw [uilist_drawPane, uilist_drawPane, uilist_drawPane, ui_refill]
  cases q <;> rfl

theorem refill_other (hf : d.Fits) (hi : 0 ≤ i ∧ i < 80) (hj : j ≠ 0) :
    d.refill.tg.framebuf (cellAt i j) = d.tg.framebuf (cellAt i j) := by
  have hf' : d.drawStatus.Fits := by
    rw [drawStatus]
    split
    · exact ⟨hf.host, hf.name⟩
    · exact hf
  exact (drawXfer_other hf' hi (.inl hj)).trans (drawStatus_other hf hi hj)

theorem refill_status (hf : d.Fits) (hbg : d.tg.bgchar = 32) (hi : 0 ≤ i ∧ i < 40) :
    d.refill.tg.framebuf (cellAt i 0) =
      if d.statusDue then statusWord d.ui.world.ftp.status d.optHost i
      else d.tg.framebuf (cellAt i 0) := by
  have hf' : d.drawStatus.Fits := by
    rw [drawStatus]
    split
    · exact ⟨hf.host, hf.name⟩
    · exact hf
  exact (drawXfer_other hf' (by omega) (.inr hi.2)).trans (drawStatus_framebuf hf hbg hi)

/-- The screen after `updateui`, below the first row and in the half of it for the server. -/
theorem updateui_framebuf (hbg : d.tg.bgchar = 32) (hplaced : ∀ p, (d.ui.uilist p).Placed 21)
    (hi : 0 ≤ i ∧ i < 80) : d.updateui.tg.framebuf (cellAt i j) =
      if j = 22 ∧ d.dirty.conline then colorAttr .white .black ||| 32
      else if j = 23 ∧ d.dirty.buttons then (buttonWord (uiButtons d.ui.focus) i).getD 0
      else if ((d.ui.updateui.uilist .localdir).dirty ∨ d.localDue) ∧ (40 ≤ i ∧ i < 80) ∧
          1 ≤ j ∧ j < 22 then
        listWord 32 (d.ui.updateui.uilist .localdir) 40 (d.hasFocus .localdir) (i - 40) (j - 1)
      else if ((d.ui.updateui.uilist .remote).dirty ∨ d.remoteDue) ∧ (0 ≤ i ∧ i < 40) ∧
          1 ≤ j ∧ j < 22 then
        listWord 32 (d.ui.updateui.uilist .remote) 40 (d.hasFocus .remote) (i - 0) (j - 1)
      else d.refill.tg.framebuf (cellAt i j) := by
  have hplaced' := (Ui.refilled_updateui d.ui).placed hplaced
  have hbg' : d.refill.tg.bgchar = 32 := (Tg.bgchar_eq setup_refill).trans hbg
  have hlocal : (d.refill.drawPane .remote d.remoteDue).ui.uilist .localdir =
      d.ui.updateui.uilist .localdir := by
    rw [uilist_drawPane, ui_refill]
    rfl
  rw [updateui_eq]
  refine (drawLines_framebuf (by rw [Tg.bgchar_eq setup_drawPane, Tg.bgchar_eq setup_drawPane,
    hbg']) hi).trans ?_
  rw [dirty_drawPane, dirty_drawPane, dirty_refill, focus_drawPane, focus_drawPane, ui_refill,
    (Ui.refilled_updateui d.ui).focus,
    drawPane_framebuf (by rw [Tg.bgchar_eq setup_drawPane, hbg'])
      (by rw [hlocal]; exact hplaced' _) hi,
    hasFocus_drawPane, hasFocus_refill, hlocal,
    drawPane_framebuf hbg' (by rw [ui_refill]; exact hplaced' _) hi, hasFocus_refill, ui_refill]
  rfl

namespace Sound

/-- A list is on the screen. -/
theorem updateui_pane (h : d.Sound) (hf : d.Fits) (p : Pane) : d.updateui.PaneShown p := by
  intro i j hi hj
  have hcols : 0 ≤ i ∧ i < 80 := by
    cases p
    · exact ⟨hi.1, hi.2.trans (by decide)⟩
    · exact ⟨le_trans (by decide) hi.1, hi.2⟩
  have hrest := refill_other hf hcols (show j ≠ 0 by omega)
  rw [updateui_framebuf h.bgchar h.placed hcols, if_neg (by omega), if_neg (by omega), hrest,
    uilist_updateui, hasFocus_updateui]
  cases p with
  | remote =>
    have hi' : 0 ≤ i ∧ i < 40 := hi
    rw [if_neg (by omega)]
    split
    · rfl
    · next hnot =>
      obtain ⟨hclean, hdue⟩ := not_or.mp fun hor => hnot ⟨hor, hi', hj⟩
      have hsame := uilist_remote (by simpa using hdue)
      rw [hsame] at hclean ⊢
      exact (h.pane .remote).resolve_left hclean i j hi hj
  | localdir =>
    have hi' : 40 ≤ i ∧ i < 80 := hi
    split
    · rfl
    · next hnot =>
      obtain ⟨hclean, hdue⟩ := not_or.mp fun hor => hnot ⟨hor, hi', hj⟩
      have hsame := uilist_localdir (by simpa using hdue)
      rw [if_neg (by omega)]
      rw [hsame] at hclean ⊢
      exact (h.pane .localdir).resolve_left hclean i j hi hj

theorem updateui_line (h : d.Sound) (hf : d.Fits) : d.updateui.LineShown := by
  intro i hi
  rw [updateui_framebuf h.bgchar h.placed hi, refill_other hf hi (by decide)]
  split
  · rfl
  · next hnot =>
    rw [if_neg (by omega), if_neg (by omega), if_neg (by omega)]
    exact h.line.resolve_left (fun hd => hnot ⟨rfl, hd⟩) i hi

theorem updateui_buttons (h : d.Sound) (hf : d.Fits) : d.updateui.ButtonsShown := by
  intro i hi
  rw [updateui_framebuf h.bgchar h.placed hi, refill_other hf hi (by decide), if_neg (by omega),
    focus_updateui]
  split
  · rfl
  · next hnot =>
    rw [if_neg (by omega), if_neg (by omega)]
    exact h.buttons.resolve_left (fun hd => hnot ⟨rfl, hd⟩) i hi

theorem updateui_status (h : d.Sound) (hf : d.Fits) : d.updateui.StatusShown := by
  intro i hi
  rw [updateui_framebuf h.bgchar h.placed (by omega), if_neg (by omega), if_neg (by omega),
    if_neg (by omega), if_neg (by omega), refill_status hf h.bgchar hi, prevStatus_updateui,
    optHost_updateui]
  split
  · rfl
  · next hnot =>
    obtain ⟨hsame, hclean⟩ := statusDue_eq_false (by simpa using hnot)
    rw [hsame]
    exact h.status.resolve_left (by rw [hclean]; exact Bool.false_ne_true) i hi

/-- **`updateui` keeps the invariant**, and clears every flag. -/
theorem updateui (h : d.Sound) (hf : d.Fits) (hclosed : d.ui.world.app.viewer.isOpen = false) :
    d.updateui.Sound := by
  have hrefilled := Ui.refilled_updateui d.ui
  constructor
  · exact (Tg.bgchar_eq setup_updateui).trans h.bgchar
  · intro p
    rw [uilist_updateui]
    exact (hrefilled.placed h.placed p).congr rfl rfl rfl rfl
  · intro p
    rw [hasFocus_updateui, focus_updateui]
    exact h.focus p
  · rw [world_updateui]
    exact calm_congr h.calm hrefilled.xfers hrefilled.nxfer
  · intro ho
    rw [world_updateui, hrefilled.viewer, hclosed] at ho
    exact absurd ho Bool.false_ne_true
  · exact fun p => .inr (h.updateui_pane hf p)
  · exact .inr (h.updateui_line hf)
  · exact .inr (h.updateui_buttons hf)
  · exact .inr (h.updateui_status hf)

end Sound

end Display

/-! ### The viewer -/

theorem bgchar_viewPaint (v : Viewer) (t : Tg) : (viewPaint v t).bgchar = t.bgchar := by
  have htext : ∀ (l : List Draw) (t : Tg),
      (l.foldl (fun t dr => dr.paint t) t).bgchar = t.bgchar := by
    intro l
    induction l with
    | nil => exact fun _ => rfl
    | cons dr l ih => exact fun t => (ih _).trans (dr.bgchar_paint t)
  rw [viewPaint]
  dsimp only
  split
  · rw [Tg.bgchar_eq (setup_drawButtons _ _)]
    split
    · rw [htext]
      split <;> rfl
    · split <;> rfl
  · split
    · rw [htext]
      split <;> rfl
    · split <;> rfl

namespace Display

variable {d : Display} {i j : Int}

namespace Sound

/-- The viewer draws over everything, and everything is flagged. -/
theorem viewUpdate (h : d.Sound) (hrun : d.ui.running = true)
    (hopen : d.ui.world.app.viewer.isOpen = true) : Sound
      { d.draw (viewPaint d.ui.world.app.viewer) with ui := d.ui.step .update } := by
  obtain ⟨hlists, hall⟩ := h.covered hopen
  have hstep : d.ui.step .update = d.ui.mapScreen fun c =>
      { c with viewer := (Visftp.viewUpdate c.viewer).2 } := by
    rw [Ui.step.eq_def, if_pos hrun]
    exact if_pos hopen
  rw [hstep]
  exact {
    bgchar := (bgchar_viewPaint _ _).trans h.bgchar
    placed := h.placed
    focus := h.focus
    calm := calm_congr h.calm rfl rfl
    covered := fun _ => ⟨hlists, hall⟩
    pane := fun p => .inl (hlists p)
    line := .inl (congrArg UiDirty.conline hall)
    buttons := .inl (congrArg UiDirty.buttons hall)
    status := .inl (congrArg UiDirty.status hall) }

/-- **A step of the main loop keeps the invariant.** -/
theorem step (h : d.Sound) (i : UiInput)
    (hf : i = .update → d.ui.world.app.viewer.isOpen = false → d.Fits) : (d.step i).Sound := by
  rw [Display.step.eq_def]
  split
  swap
  · exact h
  next hrun =>
  split
  · next =>
    split
    · next hopen => exact h.viewUpdate hrun hopen
    · next hclosed =>
      have hclosed' : d.ui.world.app.viewer.isOpen = false := by simpa using hclosed
      exact h.updateui (hf rfl hclosed') hclosed'
  · next hne => exact h.act hne hrun

section Start

variable (ctl : Fd) (user pass : Option Bytes) (short : Bool) (screen : Screen)
  (fopens : List (Option Bytes)) (reads : List FileRead) (optHost : Bytes)
  (framebuf : Int → UInt16)

/-- Everything is flagged before the first round. -/
theorem start :
    (Display.start (Ui.start ctl user pass short screen fopens reads) optHost framebuf).Sound where
  bgchar := rfl
  placed p := by
    have hnew : ∀ title, (TuiList.new title 21).Placed 21 := fun title =>
      TuiList.placed_new title 21
    cases p
    · exact (hnew (ascii "Remote")).congr rfl rfl rfl rfl
    · exact hnew (ascii "Local")
  focus p := by cases p <;> rfl
  calm := ⟨fun _ => .inr fun _ _ => rfl, fun _ _ => rfl⟩
  covered ho := absurd ho Bool.false_ne_true
  pane p := .inl (by cases p <;> rfl)
  line := .inl rfl
  buttons := .inl rfl
  status := .inl rfl

end Start

/-- **A run of the main loop keeps the invariant**, if the texts of the first row fit whenever they
are drawn. -/
theorem run (h : d.Sound) (inputs : List UiInput)
    (hf : ∀ past, past ++ [.update] <+: inputs →
      (d.run past).ui.world.app.viewer.isOpen = false → (d.run past).Fits) :
    (d.run inputs).Sound := by
  induction inputs using List.reverseRecOn with
  | nil => exact h
  | append_singleton past i ih =>
    rw [run_append_singleton]
    refine (ih fun p hp => hf p (hp.trans (List.prefix_append ..))).step i ?_
    rintro rfl
    exact hf past List.prefix_rfl

end Sound

/-! ### What the screen is to show -/

/-- **What the screen is to show** in a cell: the server, the lists, a blank line, the buttons. -/
def screenWord (d : Display) (i j : Int) : UInt16 :=
  if j = 0 then statusWord d.ui.world.ftp.status d.optHost i
  else if j < 22 then
    let p : Pane := if i < 40 then .remote else .localdir
    listWord 32 (d.ui.uilist p) 40 (d.ui.focus = p) (i - p.left) (j - 1)
  else if j = 22 then colorAttr .white .black ||| 32
  else (buttonWord (uiButtons d.ui.focus) i).getD 0

/-- The screen after `updateui`. -/
theorem Sound.screen (h : d.Sound) (hf : d.Fits)
    (hclosed : d.ui.world.app.viewer.isOpen = false) (hi : 0 ≤ i ∧ i < 80) (hj : 0 ≤ j ∧ j < 24)
    (hhalf : j = 0 → i < 40) :
    d.updateui.tg.framebuf (cellAt i j) = d.updateui.screenWord i j := by
  have hsound := h.updateui hf hclosed
  rw [screenWord]
  split
  · next hzero =>
    rw [world_updateui, (Ui.refilled_updateui d.ui).status, ← prevStatus_updateui, hzero]
    exact h.updateui_status hf i ⟨hi.1, hhalf hzero⟩
  split
  · next hpane =>
    dsimp only
    rw [← hsound.focus]
    refine h.updateui_pane hf _ i j ?_ (by omega)
    split
    · exact ⟨hi.1, by assumption⟩
    · exact ⟨by show 40 ≤ i; omega, hi.2⟩
  split
  · next hline =>
    rw [hline]
    exact h.updateui_line hf i hi
  · rw [show j = 23 by omega]
    exact h.updateui_buttons hf i hi

end Display

/-- **The screen after `updateui`**: in every run, whatever was drawn and flagged before, the screen
shows the server, the two lists as they are, and the buttons. -/
theorem screen_run (ctl : Fd) (user pass : Option Bytes) (short : Bool) (screen : Screen)
    (fopens : List (Option Bytes)) (reads : List FileRead) (optHost : Bytes)
    (framebuf : Int → UInt16) (inputs : List UiInput) {i j : Int} :
    let d := Display.start (Ui.start ctl user pass short screen fopens reads) optHost framebuf
    (∀ past, past ++ [.update] <+: inputs ++ [.update] →
      (d.run past).ui.world.app.viewer.isOpen = false → (d.run past).Fits) →
    (d.run inputs).ui.running = true → (d.run inputs).ui.world.app.viewer.isOpen = false →
    (0 ≤ i ∧ i < 80) → (0 ≤ j ∧ j < 24) → (j = 0 → i < 40) →
    (d.run (inputs ++ [.update])).tg.framebuf (cellAt i j) =
      (d.run (inputs ++ [.update])).screenWord i j := by
  intro d hfits hrun hclosed hi hj hhalf
  have hsound : (d.run inputs).Sound :=
    (Display.Sound.start ctl user pass short screen fopens reads optHost framebuf).run inputs
      fun past hp => hfits past (hp.trans (List.prefix_append ..))
  rw [Display.run_append_singleton, Display.step.eq_def, if_pos hrun]
  dsimp only
  rw [if_neg (by rw [hclosed]; exact Bool.false_ne_true)]
  exact hsound.screen (hfits inputs List.prefix_rfl hclosed) hclosed hi hj hhalf

/-- The focus goes to the local pane, and the corner of the local list is drawn. -/
theorem screen_run_tab :
    let d := Display.start (Ui.start 3 none none false
      ⟨ascii "/", [], true, Viewer.init, true, [], [], []⟩ [] []) (ascii "ftp.host") fun _ => 0
    (d.run ([.key Env.quiet .tab] ++ [.update])).tg.framebuf (cellAt 40 1) =
      (d.run ([.key Env.quiet .tab] ++ [.update])).screenWord 40 1 := by
  refine screen_run 3 none none false ⟨ascii "/", [], true, Viewer.init, true, [], [], []⟩ [] []
    (ascii "ftp.host") (fun _ => 0) [.key Env.quiet .tab] ?_ rfl rfl (by decide) (by decide)
    (by decide)
  intro past hpast _
  cases past with
  | nil => simp at hpast
  | cons a past =>
    obtain rfl : past = [] := by
      have := hpast.length_le
      simpa using this
    obtain rfl : a = .key Env.quiet .tab := by simpa using hpast
    exact ⟨by decide, by rintro x hx; cases hx⟩

end Visftp
