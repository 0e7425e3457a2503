import Visftp.Damage

/-!
# What is flagged and what is on the screen

The flags of `main.c` and of the lists say what is not on the screen as it should be: whatever is
not flagged is, in every state of every run (`Display.Sound`). Here the steps are treated that draw
nothing; `Visftp.Redrawing` treats `updateui`.

## Main definitions

* `Display.Sound` — the invariant

## Main results

* `Display.Sound.act` — a callback or a key keeps it
-/

namespace Visftp

open CString Relation

/-! ### The invariant -/

namespace Display

/-- The list of a pane is on the screen. -/
def PaneShown (p : Pane) (d : Display) : Prop :=
  ∀ i j, (p.left ≤ i ∧ i < p.left + 40) → (1 ≤ j ∧ j < 22) →
    d.tg.framebuf (cellAt i j) =
      listWord 32 (d.ui.uilist p) 40 (d.hasFocus p) (i - p.left) (j - 1)

/-- The line below the lists is blank. -/
def LineShown (d : Display) : Prop :=
  ∀ i, 0 ≤ i ∧ i < 80 → d.tg.framebuf (cellAt i 22) = colorAttr .white .black ||| 32

/-- The buttons are on the screen. -/
def ButtonsShown (d : Display) : Prop :=
  ∀ i, 0 ≤ i ∧ i < 80 →
    d.tg.framebuf (cellAt i 23) = (buttonWord (uiButtons d.ui.focus) i).getD 0

/-- The server is on the screen, as it was when it was drawn. -/
def StatusShown (d : Display) : Prop :=
  ∀ i, 0 ≤ i ∧ i < 40 → d.tg.framebuf (cellAt i 0) = statusWord d.prevStatus d.optHost i

/-- **The invariant**: what is not flagged is on the screen, and while the viewer is open everything
is flagged. -/
structure Sound (d : Display) : Prop where
  bgchar : d.tg.bgchar = 32
  placed : ∀ p, (d.ui.uilist p).Placed 21
  focus : ∀ p, d.hasFocus p = decide (d.ui.focus = p)
  calm : Calm d.ui.world
  covered : d.ui.world.app.viewer.isOpen = true →
    (∀ p, (d.ui.uilist p).dirty = true) ∧ d.dirty = .all
  pane : ∀ p, (d.ui.uilist p).dirty = true ∨ d.PaneShown p
  line : d.dirty.conline = true ∨ d.LineShown
  buttons : d.dirty.buttons = true ∨ d.ButtonsShown
  status : d.dirty.status = true ∨ d.StatusShown

/-! ### Steps that draw nothing -/

variable {d : Display} {env : Env}

theorem act_key_of_open (h : d.ui.world.app.viewer.isOpen = true) (k : Key) :
    d.act (.key env k) = d.absorb (d.ui.step (.key env k)) := if_pos h

theorem act_tab (h : d.ui.world.app.viewer.isOpen = false) : d.act (.key env .tab) =
    (d.absorb (d.ui.step (.key env .tab))).switchFocus d.ui.focus
      (d.ui.step (.key env .tab)).focus := if_neg (by rw [h]; exact Bool.false_ne_true)

theorem act_backquote (h : d.ui.world.app.viewer.isOpen = false) :
    d.act (.key env .backquote) = (d.absorb (d.ui.step (.key env .backquote))).redraw :=
  if_neg (by rw [h]; exact Bool.false_ne_true)

theorem act_f3 (h : d.ui.world.app.viewer.isOpen = false) : d.act (.key env .f3) =
    if d.ui.focus = .localdir ∧ (d.ui.step (.key env .f3)).world.app.viewer.isOpen = true then
      (d.absorb (d.ui.step (.key env .f3))).redraw
    else d.absorb (d.ui.step (.key env .f3)) := if_neg (by rw [h]; exact Bool.false_ne_true)

theorem act_key_of_other (h : d.ui.world.app.viewer.isOpen = false) {k : Key} (htab : k ≠ .tab)
    (hbackquote : k ≠ .backquote) (hf3 : k ≠ .f3) :
    d.act (.key env k) = d.absorb (d.ui.step (.key env k)) := by
  refine (if_neg (by rw [h]; exact Bool.false_ne_true)).trans ?_
  cases k <;> first | rfl | contradiction

@[simp] theorem uilist_mark (b : Bool) (p q : Pane) :
    (d.mark b p).ui.uilist q =
      if q = p then { d.ui.uilist p with dirty := b } else d.ui.uilist q :=
  Function.update_apply ..

theorem dirty_redraw (p : Pane) : (d.redraw.ui.uilist p).dirty = true := by
  cases p <;> rfl

namespace Sound

/-- Everything is flagged. -/
theorem flagAll (hbg : d.tg.bgchar = 32) (hplaced : ∀ p, (d.ui.uilist p).Placed 21)
    (hfocus : ∀ p, d.hasFocus p = decide (d.ui.focus = p)) (hcalm : Calm d.ui.world) :
    d.redraw.Sound where
  bgchar := hbg
  placed p := by
    cases p
    · exact (hplaced .remote).congr rfl rfl rfl rfl
    · exact (hplaced .localdir).congr rfl rfl rfl rfl
  focus := hfocus
  calm := hcalm
  covered _ := ⟨dirty_redraw, rfl⟩
  pane p := .inl (dirty_redraw p)
  line := .inl rfl
  buttons := .inl rfl
  status := .inl rfl

theorem redraw (h : d.Sound) : d.redraw.Sound := flagAll h.bgchar h.placed h.focus h.calm

/-- Where no flag is cleared and nothing is drawn, everything unflagged is as it was. -/
theorem keep (h : d.Sound) {ui : Ui} {curXfer : Option ℕ} (hlists : ∀ p,
    (d.ui.uilist p).Marked (ui.uilist p) ∧ (ui.uilist p).Placed 21) (hfocus : ui.focus = d.ui.focus)
    (hcalm : Calm ui.world) (hcovered : ui.world.app.viewer.isOpen = true →
      d.ui.world.app.viewer.isOpen = true) :
    Sound { d with ui := ui, curXfer := curXfer } where
  bgchar := h.bgchar
  placed p := (hlists p).2
  focus p := by
    show d.hasFocus p = decide (ui.focus = p)
    rw [hfocus]
    exact h.focus p
  calm := hcalm
  covered ho := by
    obtain ⟨hdirty, hall⟩ := h.covered (hcovered ho)
    refine ⟨fun p => ?_, hall⟩
    rcases (hlists p).1.dirty with hd | hsame
    · exact hd
    · show (ui.uilist p).dirty = true
      rw [hsame]
      exact hdirty p
  pane p := by
    rcases (hlists p).1.dirty with hd | hsame
    · exact .inl hd
    · refine (h.pane p).imp (fun hd => ?_) fun hshown i j hi hj => ?_
      · show (ui.uilist p).dirty = true
        rw [hsame]
        exact hd
      · show _ = listWord 32 (ui.uilist p) 40 (d.hasFocus p) _ _
        rw [hsame]
        exact hshown i j hi hj
  line := h.line
  buttons := by
    refine h.buttons.imp id fun hshown i hi => ?_
    show _ = (buttonWord (uiButtons ui.focus) i).getD 0
    rw [hfocus]
    exact hshown i hi
  status := h.status

/-- The calls of the history that are new. -/
theorem take_calls {log base new : List Event} (h : calls log = new ++ base) :
    (calls log).take ((calls log).length - base.length) = new := by
  rw [h, List.length_append, Nat.add_sub_cancel, List.take_left']
  rfl

/-- **The deeds of the main loop keep the invariant**: when a callback opens the viewer, everything
is flagged. -/
theorem absorb (h : d.Sound) {ui : Ui} {i : UiInput} (hdeeds : Ui.Deeds i d.ui ui) :
    (d.absorb ui).Sound := by
  have hlists := fun p => hdeeds.lists h.placed p
  have hwatched := hdeeds.watched h.calm.watched
  obtain ⟨new, hlog, hopen⟩ := hwatched.opened
  rw [Display.absorb, take_calls hlog]
  split
  · refine flagAll h.bgchar (fun p => (hlists p).2) (fun p => ?_) hwatched.toCalm
    show d.hasFocus p = decide (ui.focus = p)
    rw [hdeeds.focus_eq]
    exact h.focus p
  · next hnone => exact h.keep hlists hdeeds.focus_eq hwatched.toCalm fun ho =>
      (hopen ho).resolve_right hnone

end Sound

end Display

/-! ### The two keys -/

namespace Ui

variable {s : Ui}

/-- `act_view` of a local file touches the viewer at most. -/
theorem actView_local (hf : s.focus = .localdir) :
    s.actView.uilist = s.uilist ∧ s.actView.focus = s.focus ∧
      s.actView.world.log = s.world.log ∧ s.actView.world.xfers = s.world.xfers ∧
      s.actView.world.nxfer = s.world.nxfer := by
  rw [actView]
  split
  · exact ⟨rfl, rfl, rfl, rfl, rfl⟩
  split
  · next hremote => exact absurd (hf.symm.trans hremote) (by decide)
  · dsimp only
    split <;> exact ⟨rfl, rfl, rfl, rfl, rfl⟩

/-- The pane that has not the focus. -/
def otherPane (s : Ui) : Pane := match s.focus with | .remote => .localdir | .localdir => .remote

theorem step_f3 (hrun : s.running = true) (hclosed : s.world.app.viewer.isOpen = false)
    (hf : s.focus = .localdir) (env : Env) :
    (s.step (.key env .f3)).uilist = s.uilist ∧ (s.step (.key env .f3)).focus = s.focus ∧
      (s.step (.key env .f3)).world.log = s.world.log ∧
      (s.step (.key env .f3)).world.xfers = s.world.xfers ∧
      (s.step (.key env .f3)).world.nxfer = s.world.nxfer := by
  have hstep : s.step (.key env .f3) =
      { ({ s with world := { s.world with env := env } } : Ui).actView with running := true } := by
    rw [step.eq_def, if_pos hrun]
    dsimp only
    rw [keypress.eq_def, if_neg (by rw [hclosed]; exact Bool.false_ne_true)]
    rfl
  rw [hstep]
  exact actView_local (s := { s with world := { s.world with env := env } }) hf

theorem step_tab (hrun : s.running = true) (hclosed : s.world.app.viewer.isOpen = false)
    (env : Env) :
    (s.step (.key env .tab)).uilist = s.uilist ∧ (s.step (.key env .tab)).focus = s.otherPane ∧
      (s.step (.key env .tab)).world = { s.world with env := env } := by
  have hstep : s.step (.key env .tab) = { s with
      world := { s.world with env := env }, focus := s.otherPane, running := true } := by
    rw [step.eq_def, if_pos hrun]
    dsimp only
    rw [keypress.eq_def, if_neg (by rw [hclosed]; exact Bool.false_ne_true)]
    rfl
  rw [hstep]
  exact ⟨rfl, rfl, rfl⟩

theorem otherPane_ne (s : Ui) : s.otherPane ≠ s.focus := by
  rw [otherPane]
  cases s.focus <;> decide

end Ui

namespace Display

namespace Sound

variable {d : Display}

/-- Without new calls nothing is flagged. -/
theorem absorb_of_log {ui : Ui} (h : calls ui.world.log = calls d.ui.world.log) :
    d.absorb ui = { d with ui := ui } := by
  have hnew : (calls ui.world.log).take
      ((calls ui.world.log).length - (calls d.ui.world.log).length) = [] := take_calls h
  rw [Display.absorb, hnew]
  rfl

theorem calm_congr {w w' : World Screen} (h : Calm w) (hx : w'.xfers = w.xfers)
    (hn : w'.nxfer = w.nxfer) : Calm w' := by
  refine ⟨?_, ?_⟩
  · rw [hx]
    exact h.callback
  · rw [hx, hn]
    exact h.fresh

/-- The focus goes from one list to the other. -/
theorem switchFocus_eq {old new : Pane} (hold : d.hasFocus old = true)
    (hnew : d.hasFocus new = false) (hne : old ≠ new) :
    (d.switchFocus old new).tg = d.tg ∧ (d.switchFocus old new).optHost = d.optHost ∧
      (d.switchFocus old new).dirty = { d.dirty with buttons := true } ∧
      (d.switchFocus old new).prevStatus = d.prevStatus ∧
      (d.switchFocus old new).ui.world = d.ui.world ∧
      (d.switchFocus old new).ui.focus = d.ui.focus ∧
      (∀ p, (d.switchFocus old new).ui.uilist p = { d.ui.uilist p with dirty := true }) ∧
      ∀ p, (d.switchFocus old new).hasFocus p = decide (new = p) := by
  have hfirst : d.tuiFocus old false =
      { d.mark true old with hasFocus := Function.update d.hasFocus old false } :=
    if_neg (by rw [hold]; decide)
  have hsecond : (d.tuiFocus old false).tuiFocus new true =
      { ({ d.mark true old with hasFocus := Function.update d.hasFocus old false } :
        Display).mark true new with
        hasFocus := Function.update (Function.update d.hasFocus old false) new true } := by
    rw [hfirst]
    refine if_neg ?_
    show ¬Function.update d.hasFocus old false new = true
    rw [Function.update_of_ne hne.symm, hnew]
    decide
  rw [Display.switchFocus, hsecond]
  refine ⟨rfl, rfl, rfl, rfl, rfl, rfl, fun p => ?_, fun p => ?_⟩
  · cases old <;> cases new <;> cases p <;> first | rfl | exact absurd rfl hne
  · cases old <;> cases new <;> cases p <;> first | rfl | exact absurd rfl hne

/-- The key that opens a local file. -/
theorem viewKey (h : d.Sound) (env : Env) (hrun : d.ui.running = true)
    (hclosed : d.ui.world.app.viewer.isOpen = false) (hf : d.ui.focus = .localdir) :
    (d.act (.key env .f3)).Sound := by
  obtain ⟨hlists, hfocus, hlog, hxfers, hnxfer⟩ := Ui.step_f3 hrun hclosed hf env
  rw [act_f3 hclosed, absorb_of_log (congrArg calls hlog)]
  generalize d.ui.step (.key env .f3) = ui at hlists hfocus hlog hxfers hnxfer ⊢
  have hplaced : ∀ p, (ui.uilist p).Placed 21 := fun p => by
    rw [hlists]
    exact h.placed p
  have hcalm : Calm ui.world := calm_congr h.calm hxfers hnxfer
  split
  · refine flagAll h.bgchar hplaced (fun p => ?_) hcalm
    show d.hasFocus p = decide (ui.focus = p)
    rw [hfocus]
    exact h.focus p
  · next hnot =>
    refine h.keep (fun p => ⟨?_, hplaced p⟩) hfocus hcalm fun ho => absurd ⟨hf, ho⟩ hnot
    rw [hlists]
    exact .refl _

/-- The key that goes to the other pane. -/
theorem tabKey (h : d.Sound) (env : Env) (hrun : d.ui.running = true)
    (hclosed : d.ui.world.app.viewer.isOpen = false) : (d.act (.key env .tab)).Sound := by
  obtain ⟨hlists, hfocus, hworld⟩ := Ui.step_tab hrun hclosed env
  rw [act_tab hclosed, absorb_of_log (by rw [hworld])]
  generalize d.ui.step (.key env .tab) = ui at hlists hfocus hworld ⊢
  have hne := Ui.otherPane_ne d.ui
  have hold : d.hasFocus d.ui.focus = true := (h.focus _).trans (decide_eq_true rfl)
  have hnew : d.hasFocus d.ui.otherPane = false := (h.focus _).trans (decide_eq_false hne.symm)
  have hplaced : ∀ p, (ui.uilist p).Placed 21 := fun p => by
    rw [hlists]
    exact h.placed p
  have hcalm : Calm ui.world := calm_congr h.calm (by rw [hworld]) (by rw [hworld])
  have hopen : ui.world.app.viewer.isOpen = false := by
    rw [hworld]
    exact hclosed
  obtain ⟨htg, hhost, hdirty, hprev, hworld', hfocus', hlists', hfocused⟩ :=
    switchFocus_eq (d := { d with ui := ui }) hold (hfocus ▸ hnew) (hfocus ▸ hne.symm)
  generalize Display.switchFocus d.ui.focus ui.focus { d with ui := ui } = e at *
  constructor
  · rw [htg]
    exact h.bgchar
  · intro p
    rw [hlists' p]
    exact (hplaced p).congr rfl rfl rfl rfl
  · intro p
    rw [hfocused p, hfocus']
  · rw [hworld']
    exact hcalm
  · intro ho
    rw [hworld'] at ho
    exact absurd (hopen.symm.trans ho) Bool.false_ne_true
  · intro p
    exact .inl (by rw [hlists' p])
  · rw [hdirty, LineShown, htg]
    exact h.line
  · exact .inl (by rw [hdirty])
  · rw [hdirty, StatusShown, htg, hprev, hhost]
    exact h.status

/-- **A step that draws nothing** keeps the invariant. -/
theorem act (h : d.Sound) {i : UiInput} (hi : i ≠ .update) (hrun : d.ui.running = true) :
    (d.act i).Sound := by
  have habsorb : ¬i.Special d.ui → (d.absorb (d.ui.step i)).Sound := fun hs =>
    h.absorb (Ui.deeds_step i hi hs)
  cases i with
  | update => exact absurd rfl hi
  | handle env fd => exact habsorb id
  | goto env dir => exact habsorb id
  | key env k =>
    by_cases hopen : d.ui.world.app.viewer.isOpen = true
    · rw [act_key_of_open hopen]
      exact habsorb fun hs => absurd (hs.1.symm.trans hopen) Bool.false_ne_true
    have hclosed : d.ui.world.app.viewer.isOpen = false := by simpa using hopen
    by_cases htab : k = .tab
    · subst htab
      exact h.tabKey env hrun hclosed
    by_cases hf3 : k = .f3
    · subst hf3
      by_cases hf : d.ui.focus = .localdir
      · exact h.viewKey env hrun hclosed hf
      · rw [act_f3 hclosed, if_neg fun hand => hf hand.1]
        exact habsorb fun hs => hs.2.elim htab fun hand => hf hand.2
    have hsound := habsorb fun hs => hs.2.elim htab fun hand => hf3 hand.1
    by_cases hback : k = .backquote
    · subst hback
      rw [act_backquote hclosed]
      exact hsound.redraw
    · rw [act_key_of_other hclosed htab hback hf3]
      exact hsound

end Sound

end Display

end Visftp
