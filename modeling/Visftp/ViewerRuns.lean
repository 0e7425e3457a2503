import Visftp.Lifetimes

/-!
# Runs with the viewer

While the viewer is open, the main loop draws it and not the lists. Its text is flagged by
everything that changes it, so that after `view_update` the text area shows the lines as they are
(`view_run`), and whatever is drawn stays on the first 24 rows of the screen (`framebuf_run`).

## Main definitions

* `Viewer.Follows` — what callbacks and keys do to the viewer
* `Display.Viewed` — the invariant

## Main results

* `view_run` — the text area after `view_update`, in every run
* `framebuf_run` — what no run stores to
-/

namespace Visftp

open CString Relation

/-! ### What happens to the viewer -/

/-- **What callbacks and keys do to the viewer**: nothing, or they flag its text. -/
structure Viewer.Follows (v v' : Viewer) : Prop where
  hscroll : 0 ≤ v.hscroll → 0 ≤ v'.hscroll
  text : v'.dirtyText = true ∨ v' = v

namespace Viewer.Follows

variable {v v' v'' : Viewer}

theorem refl (v : Viewer) : Follows v v := ⟨id, .inr rfl⟩

theorem trans (h : Follows v v') (h' : Follows v' v'') : Follows v v'' := by
  refine ⟨h'.hscroll ∘ h.hscroll, ?_⟩
  rcases h'.text with hd | rfl
  · exact .inl hd
  · exact h.text

theorem of_eq (h : v' = v) : Follows v v' := h ▸ refl v

theorem viewMemopen (name : Bytes) (start : Option Bytes) (v : Viewer) :
    Follows v (Visftp.viewMemopen name start v) := ⟨id, .inl rfl⟩

theorem viewDone (x : XferData) (v : Viewer) : Follows v (Visftp.viewDone x v) := by
  rw [Visftp.viewDone]
  split
  · exact viewMemopen _ _ v
  · exact refl v

theorem viewInput (k : ViewKey) (v : Viewer) : Follows v (Visftp.viewInput k v) := by
  cases k with
  | other => exact refl v
  | left =>
    refine ⟨fun h => ?_, .inl rfl⟩
    show 0 ≤ if 0 < v.hscroll then v.hscroll - 1 else v.hscroll
    split <;> omega
  | right =>
    refine ⟨fun h => ?_, .inl rfl⟩
    show 0 ≤ v.hscroll + 1
    omega
  | home | fin | pgup => exact ⟨fun _ => le_rfl, .inl rfl⟩
  | pgdn => exact ⟨fun _ => le_rfl, .inl rfl⟩
  | quit | redraw | up | down => exact ⟨id, .inl rfl⟩

end Viewer.Follows

/-- The callbacks of the transfers do no more than that. -/
def FollowedBy (w : World Screen) : Prop :=
  ∀ t x a, Viewer.Follows a.viewer ((w.xfers t).done x a).viewer

namespace FollowedBy

variable {w w' : World Screen}

theorem talks (h : FollowedBy w) (ht : Talks w w') :
    FollowedBy w' ∧ w.app.viewer.Follows w'.app.viewer := by
  obtain ⟨cs, -, happ, -⟩ := ht.app_eq
  refine ⟨fun t x a => ?_, ?_⟩
  · rw [(ht.xfers_eq t).1]
    exact h t x a
  · rw [happ]
    clear happ
    induction cs using List.reverseRecOn with
    | nil => exact .refl _
    | append_singleton cs c ih =>
      rw [List.foldl_append]
      exact ih.trans (h c.1 c.2 _)

theorem newXfer (h : FollowedBy w) {x : Xfer Screen}
    (hx : ∀ y a, Viewer.Follows a.viewer (x.done y a).viewer) : FollowedBy (w.newXfer x) := by
  intro t y a
  show Viewer.Follows _ (((Function.update w.xfers w.nxfer _) t).done y a).viewer
  rw [Function.update_apply]
  split
  · exact hx y a
  · exact h t y a

end FollowedBy

namespace Ui

variable {s s' : Ui}

theorem Deeds.follows {i : UiInput} (hd : Deeds i s s') (h : FollowedBy s.world) :
    FollowedBy s'.world ∧ s.world.app.viewer.Follows s'.world.app.viewer := by
  induction hd with
  | refl => exact ⟨h, .refl _⟩
  | @tail s₁ s₂ _ hdeed ih =>
    have hcall : ∀ {w'}, Talks s₁.world w' →
        FollowedBy w' ∧ s.world.app.viewer.Follows w'.app.viewer := fun ht =>
      ⟨(ih.1.talks ht).1, ih.2.trans (ih.1.talks ht).2⟩
    have hnew : ∀ (x : Xfer Screen) (w' : World Screen),
        (∀ y a, Viewer.Follows a.viewer (x.done y a).viewer) →
        Talks (({ s₁.world with env := s₁.world.env } : World Screen).newXfer x) w' →
        FollowedBy w' ∧ s.world.app.viewer.Follows w'.app.viewer := by
      intro x w' hx ht
      have hmade : FollowedBy (({ s₁.world with env := s₁.world.env } : World Screen).newXfer x) :=
        ih.1.newXfer hx
      exact ⟨(hmade.talks ht).1, ih.2.trans (hmade.talks ht).2⟩
    cases hdeed with
    | beside hw _ _ =>
      rw [hw]
      exact ih
    | ask | move => exact ih
    | screen f hf => exact ⟨ih.1, ih.2.trans (.of_eq (hf _))⟩
    | scroll k _ => exact ⟨ih.1, ih.2.trans (.viewInput k _)⟩
    | queue env op hop => exact hcall (Talks.queue env op hop .refl)
    | handle env fd => exact hcall (Talks.handle env fd .refl)
    | download ent =>
      exact hnew _ _ (fun x a => .of_eq (Screen.viewer_xferDone x a))
        (Talks.transfer _ (downloadXfer ent) _)
    | view ent =>
      exact hnew _ _ (fun x a => .viewDone x a.viewer) (Talks.transfer _ (viewXfer ent) _)

/-- A local file is opened in the viewer. -/
theorem follows_actView_local (hf : s.focus = .localdir) (h : FollowedBy s.world) :
    FollowedBy s.actView.world ∧ s.world.app.viewer.Follows s.actView.world.app.viewer := by
  rw [actView]
  split
  · exact ⟨h, .refl _⟩
  split
  · next hremote => exact absurd (hf.symm.trans hremote) (by decide)
  · dsimp only
    split
    · exact ⟨h, .refl _⟩
    · exact ⟨h, .refl _⟩
    · exact ⟨h, .refl _⟩
    · exact ⟨h, .viewMemopen _ _ _⟩

/-- **A callback or a key** changes nothing of the viewer without flagging its text. -/
theorem follows_step (h : FollowedBy s.world) (i : UiInput) (hi : i ≠ .update) :
    FollowedBy (s.step i).world ∧ s.world.app.viewer.Follows (s.step i).world.app.viewer := by
  by_cases hspecial : i.Special s
  swap
  · exact (deeds_step i hi hspecial).follows h
  by_cases hrun : s.running = true
  swap
  · rw [step.eq_def, if_neg hrun]
    exact ⟨h, .refl _⟩
  cases i with
  | key env k =>
    obtain ⟨hclosed, rfl | ⟨rfl, hf⟩⟩ := hspecial
    · rw [(step_tab hrun hclosed env).2.2]
      exact ⟨h, .refl _⟩
    · rw [step.eq_def, if_pos hrun]
      dsimp only
      rw [keypress.eq_def, if_neg (by rw [hclosed]; exact Bool.false_ne_true)]
      exact follows_actView_local (s := { s with world := { s.world with env := env } }) hf h
  | handle | goto | update => exact hspecial.elim

end Ui

/-! ### The screen -/

namespace Display

variable {d : Display} {i j k : Int}

/-- Nothing is drawn by callbacks and keys. -/
theorem tg_act (i : UiInput) : (d.act i).tg = d.tg := by
  have habsorb : ∀ ui, (d.absorb ui).tg = d.tg := fun ui => by
    unfold absorb
    extract_lets
    split <;> rfl
  have hfocus : ∀ (d : Display) p focus, (d.tuiFocus p focus).tg = d.tg := by
    intro d p focus
    rw [tuiFocus]
    split <;> rfl
  cases i with
  | key env k =>
    by_cases hopen : d.ui.world.app.viewer.isOpen = true
    · rw [act_key_of_open hopen, habsorb]
    have hclosed : d.ui.world.app.viewer.isOpen = false := by simpa using hopen
    by_cases htab : k = .tab
    · subst htab
      rw [act_tab hclosed]
      exact ((hfocus _ _ _).trans (hfocus _ _ _)).trans (habsorb _)
    by_cases hf3 : k = .f3
    · subst hf3
      rw [act_f3 hclosed]
      split <;> exact habsorb _
    by_cases hback : k = .backquote
    · subst hback
      rw [act_backquote hclosed]
      exact habsorb _
    · rw [act_key_of_other hclosed htab hback hf3, habsorb]
  | handle | goto | update => exact habsorb _

/-- What is painted of the lines is on the screen. -/
def TextShown (d : Display) : Prop :=
  let v := d.ui.world.app.viewer
  ∀ k < min v.lines.length (numVislines - 1), ∀ i : Int, 1 ≤ i ∧ i ≤ 78 → ∀ c,
    painted (drawLine v.hscroll (k + 1) 0 (v.line (v.vscroll + k))) i (k + 1) = some c →
    d.tg.framebuf (cellAt i (k + 1)) = colorAttr .white .blue ||| c.toUInt16

/-- **The invariant**: the text of an open viewer is on the screen, or flagged. -/
structure Viewed (d : Display) : Prop where
  cached : d.tg.Cached
  bgchar : d.tg.bgchar = 32
  followed : FollowedBy d.ui.world
  hscroll : 0 ≤ d.ui.world.app.viewer.hscroll
  frame : d.ui.world.app.viewer.dirtyFrame = true → d.ui.world.app.viewer.dirtyText = true
  shown : d.ui.world.app.viewer.isOpen = true →
    d.ui.world.app.viewer.dirtyText = true ∨ d.TextShown

namespace Viewed

theorem act (h : d.Viewed) {i : UiInput} (hi : i ≠ .update) : (d.act i).Viewed := by
  have hworld : (d.act i).ui.world = (d.ui.step i).world :=
    (act_other i).1.trans (world_absorb _)
  obtain ⟨hfollowed, hviewer⟩ := Ui.follows_step h.followed i hi
  constructor
  · rw [tg_act]
    exact h.cached
  · rw [tg_act]
    exact h.bgchar
  · rw [hworld]
    exact hfollowed
  · rw [hworld]
    exact hviewer.hscroll h.hscroll
  · rw [hworld]
    intro hf
    rcases hviewer.text with htext | hsame
    · exact htext
    · rw [hsame] at hf ⊢
      exact h.frame hf
  · rw [TextShown, tg_act, hworld]
    intro hopen
    rcases hviewer.text with htext | hsame
    · exact .inl htext
    · rw [hsame] at hopen ⊢
      exact h.shown hopen

/-- **`view_update`** shows the text. -/
theorem viewUpdate (h : d.Viewed) (hrun : d.ui.running = true)
    (hopen : d.ui.world.app.viewer.isOpen = true) : Viewed
      { d.draw (viewPaint d.ui.world.app.viewer) with ui := d.ui.step .update } := by
  have hstep : d.ui.step .update = d.ui.mapScreen fun c =>
      { c with viewer := (Visftp.viewUpdate c.viewer).2 } := by
    rw [Ui.step.eq_def, if_pos hrun]
    exact if_pos hopen
  obtain ⟨hcached, hbg⟩ := cached_viewPaint (v := d.ui.world.app.viewer) h.hscroll h.cached h.bgchar
  rw [hstep]
  refine ⟨hcached, hbg, h.followed, h.hscroll, fun hf => absurd hf Bool.false_ne_true,
    fun _ => .inr fun k hk i hi c hc => ?_⟩
  show (viewPaint d.ui.world.app.viewer d.tg).framebuf (cellAt i (k + 1)) = _
  by_cases hd : d.ui.world.app.viewer.dirtyText = true
  · rw [viewPaint_text h.hscroll hd h.cached h.bgchar hk hi]
    have hpainted : painted (drawLine d.ui.world.app.viewer.hscroll (k + 1) 0
      (d.ui.world.app.viewer.line (d.ui.world.app.viewer.vscroll + k))) i (k + 1) = some c := hc
    rw [hpainted]
    rfl
  · have hf : d.ui.world.app.viewer.dirtyFrame = false := by
      simpa using fun hf => hd (h.frame hf)
    have hk21 : k < 21 := lt_of_lt_of_le hk (min_le_right _ _)
    rw [viewPaint_clean (by simpa using hd) hf (by omega) (by omega)]
    exact (h.shown hopen).resolve_left hd k hk i hi c hc

theorem updateui (h : d.Viewed) (hclosed : d.ui.world.app.viewer.isOpen = false) :
    d.updateui.Viewed := by
  have hrefilled := Ui.refilled_updateui d.ui
  have hviewer : d.updateui.ui.world.app.viewer = d.ui.world.app.viewer := by
    rw [world_updateui]
    exact hrefilled.viewer
  constructor
  · exact h.cached.congr setup_updateui
  · exact (Tg.bgchar_eq setup_updateui).trans h.bgchar
  · intro t
    rw [world_updateui, hrefilled.xfers]
    exact h.followed t
  · rw [hviewer]
    exact h.hscroll
  · rw [hviewer]
    exact h.frame
  · rw [hviewer, hclosed]
    exact fun ho => absurd ho Bool.false_ne_true

theorem step (h : d.Viewed) (i : UiInput) : (d.step i).Viewed := by
  rw [Display.step.eq_def]
  split
  swap
  · exact h
  next hrun =>
  split
  · split
    · next hopen => exact h.viewUpdate hrun hopen
    · next hclosed => exact h.updateui (by simpa using hclosed)
  · next hne => exact h.act hne

theorem run (h : d.Viewed) (inputs : List UiInput) : (d.run inputs).Viewed := by
  induction inputs using List.reverseRecOn with
  | nil => exact h
  | append_singleton past i ih =>
    rw [run_append_singleton]
    exact ih.step i

end Viewed

end Display

section Runs

variable (ctl : Fd) (user pass : Option Bytes) (short : Bool) (screen : Screen)
  (fopens : List (Option Bytes)) (reads : List FileRead) (optHost : Bytes)
  (framebuf : Int → UInt16) (inputs : List UiInput)

theorem viewed_start : (Display.start (Ui.start ctl user pass short screen fopens reads) optHost
    framebuf).Viewed where
  cached := .inr ⟨rfl, rfl⟩
  bgchar := rfl
  followed _ _ a := .refl a.viewer
  hscroll := le_rfl
  frame hf := absurd hf Bool.false_ne_true
  shown ho := absurd ho Bool.false_ne_true

end Runs

/-! ### The text area -/

/-- Column `c` of the window that begins `h` columns behind the start of a line is painted as it
should be: it is behind the end of a line of less than 78 columns, it shows one of the first 78
columns, or a tab covers the same column of the line. -/
def Rendered (h : ℕ) (line : Bytes) (c : ℕ) : Prop :=
  ((expandTabs 0 line).length < 78 ∧ (expandTabs 0 line).length ≤ h + c) ∨
    (h + c < 78 ∧ ∃ b, (expandTabs 0 line)[h + c]? = some (some b)) ∨
    (textColumn h line c = 32 ∧ (expandTabs 0 line)[c]? = some none)

theorem painted_of_rendered {h c : ℕ} {line : Bytes} {row : Int} (hc : c < 78)
    (hr : Rendered h line c) :
    painted (drawLine h row 0 line) (c + 1) row = some (textColumn h line c) := by
  have hshows := (shows_iff (h := h) (c := c) false line).mpr
    (hr.imp_right fun hr => hr.imp_right fun hr => ⟨hr.1, .inr hr.2⟩)
  rw [if_neg Bool.false_ne_true, Option.or_none] at hshows
  rw [painted_drawLine hc, hshows]

/-- **The text area after `view_update`**: in every run, whatever was drawn and flagged before, the
window is on the screen in the rows of the lines that there are, wherever their columns are painted
as they should be. Of a row without a line, which is read outside of the array, nothing is said. -/
theorem view_run (ctl : Fd) (user pass : Option Bytes) (short : Bool) (screen : Screen)
    (fopens : List (Option Bytes)) (reads : List FileRead) (optHost : Bytes)
    (framebuf : Int → UInt16) (inputs : List UiInput) :
    let d := Display.start (Ui.start ctl user pass short screen fopens reads) optHost framebuf
    let v := (d.run (inputs ++ [.update])).ui.world.app.viewer
    (d.run inputs).ui.running = true → (d.run inputs).ui.world.app.viewer.isOpen = true →
    ∀ k < min v.lines.length (numVislines - 1), ∀ (m : ℕ) (span : Span), v.vscroll + k = m →
      v.lines[m]? = some span → ∀ c < 78,
      Rendered v.hscroll.toNat (span.text (v.data.getD [])) c →
      (d.run (inputs ++ [.update])).tg.framebuf (cellAt (c + 1) (k + 1)) =
        colorAttr .white .blue |||
          (textColumn v.hscroll.toNat (span.text (v.data.getD [])) c).toUInt16 := by
  intro d v hrun hopen k hk m span hm hspan c hc hr
  have hstart := viewed_start ctl user pass short screen fopens reads optHost framebuf
  have hviewed : (d.run (inputs ++ [.update])).Viewed := hstart.run _
  have hstep : (d.run inputs).ui.step .update = (d.run inputs).ui.mapScreen fun c =>
      { c with viewer := (viewUpdate c.viewer).2 } := by
    rw [Ui.step.eq_def, if_pos hrun]
    exact if_pos hopen
  have hv : v = (viewUpdate (d.run inputs).ui.world.app.viewer).2 := by
    show (d.run (inputs ++ [.update])).ui.world.app.viewer = _
    rw [Display.run_append_singleton, Display.step.eq_def, if_pos hrun]
    dsimp only
    rw [if_pos hopen, hstep]
    rfl
  have hclean : v.dirtyText = false := by
    rw [hv]
    rfl
  have hvopen : v.isOpen = true := by
    rw [hv]
    exact hopen
  have htext := (hviewed.shown hvopen).resolve_left (by rw [hclean]; exact Bool.false_ne_true)
  refine htext k hk (c + 1) (by omega) _ ?_
  have hscroll : v.hscroll = (v.hscroll.toNat : Int) := (Int.toNat_of_nonneg hviewed.hscroll).symm
  have hline : v.line (v.vscroll + k) = span.text (v.data.getD []) :=
    Viewer.line_of_getElem? hm hspan
  show painted (drawLine v.hscroll (k + 1) 0 (v.line (v.vscroll + k))) (c + 1) (k + 1) = _
  rw [hscroll, hline]
  exact painted_of_rendered hc hr

/-- A local file is viewed, and its first character is on the screen. -/
theorem view_run_local :
    let d := Display.start (Ui.start 3 none none false
      ⟨ascii "/", [⟨ascii "f", .file, 3⟩], true, Viewer.init, true, [], [], []⟩ []
      [.contents (ascii "hi\n")]) [] fun _ => 0
    (d.run ([.update, .key Env.quiet .tab, .key Env.quiet .f3] ++ [.update])).tg.framebuf
      (cellAt ((0 : ℕ) + 1) ((0 : ℕ) + 1)) = colorAttr .white .blue ||| 104 :=
  view_run 3 none none false ⟨ascii "/", [⟨ascii "f", .file, 3⟩], true, Viewer.init, true, [], [],
    []⟩ [] [.contents (ascii "hi\n")] [] (fun _ => 0)
    [.update, .key Env.quiet .tab, .key Env.quiet .f3] (by decide +kernel) (by decide +kernel) 0
    (by decide +kernel) 0 ⟨0, 2⟩ (by decide +kernel) (by decide +kernel) 0 (by decide)
    (.inr (.inl ⟨by decide +kernel, 104, by decide +kernel⟩))

/-! ### What is not drawn to -/

namespace Display

variable {d : Display}

/-- **A step stores to the first 24 rows only.** -/
theorem framebuf_step (h : d.Viewed) (hs : d.Sound) (i : UiInput)
    (hf : i = .update → d.ui.world.app.viewer.isOpen = false → d.Fits) {k : Int}
    (hk : k ∉ drawnAddresses) : (d.step i).tg.framebuf k = d.tg.framebuf k := by
  rw [Display.step.eq_def]
  split
  swap
  · rfl
  split
  · split
    · exact viewPaint_outside h.hscroll h.cached h.bgchar hk
    · next hclosed =>
      have hfits := hf rfl (by simpa using hclosed)
      obtain ⟨i, j, hi, hi', rfl⟩ := exists_cellAt k
      rw [drawnAddresses, mem_addresses, cellAt] at hk
      rw [updateui_framebuf hs.bgchar hs.placed ⟨hi, hi'⟩, if_neg (by omega), if_neg (by omega),
        if_neg (by omega), if_neg (by omega), refill_other hfits ⟨hi, hi'⟩ (by omega)]
  · rw [tg_act]

theorem framebuf_run_eq (h : d.Viewed) (hs : d.Sound) (inputs : List UiInput)
    (hf : ∀ past, past ++ [.update] <+: inputs →
      (d.run past).ui.world.app.viewer.isOpen = false → (d.run past).Fits) {k : Int}
    (hk : k ∉ drawnAddresses) : (d.run inputs).tg.framebuf k = d.tg.framebuf k := by
  induction inputs using List.reverseRecOn with
  | nil => rfl
  | append_singleton past i ih =>
    have hpast := fun p (hp : p ++ [UiInput.update] <+: past) =>
      hf p (hp.trans (List.prefix_append ..))
    rw [run_append_singleton, framebuf_step (h.run past) (hs.run past hpast) i ?_ hk, ih hpast]
    rintro rfl
    exact hf past List.prefix_rfl

end Display

/-- **Nothing is stored outside of the screen**: in every run, the memory before and behind the 25
rows is as it was, and the last row is blank, whatever is drawn. -/
theorem framebuf_run (ctl : Fd) (user pass : Option Bytes) (short : Bool) (screen : Screen)
    (fopens : List (Option Bytes)) (reads : List FileRead) (optHost : Bytes)
    (framebuf : Int → UInt16) (inputs : List UiInput) :
    let d := Display.start (Ui.start ctl user pass short screen fopens reads) optHost framebuf
    (∀ past, past ++ [.update] <+: inputs →
      (d.run past).ui.world.app.viewer.isOpen = false → (d.run past).Fits) →
    (∀ k, k < 0 ∨ 2000 ≤ k → (d.run inputs).tg.framebuf k = framebuf k) ∧
      ∀ k, 1920 ≤ k ∧ k < 2000 → (d.run inputs).tg.framebuf k = 0x0720 := by
  intro d hf
  have hsame : ∀ k, k < 0 ∨ 1920 ≤ k → (d.run inputs).tg.framebuf k = d.tg.framebuf k := by
    intro k hk
    refine Display.framebuf_run_eq (viewed_start ctl user pass short screen fopens reads optHost
      framebuf) (Display.Sound.start ctl user pass short screen fopens reads optHost framebuf)
      inputs hf ?_
    rw [drawnAddresses, mem_addresses]
    omega
  have hclear : ∀ i j, 0 ≤ i ∧ i < 80 → d.tg.framebuf (cellAt i j) =
      if 0 ≤ j ∧ j < 25 then 0x0720 else framebuf (cellAt i j) := by
    intro i j hi
    refine (tgRect_framebuf (tgBgchar 32 (Tg.init framebuf)) none false (by omega) (by decide)
      hi).trans ?_
    rw [rectWord_plain]
    exact if_congr (by omega)
      (show (0x0700 : UInt16) ||| UInt16.ofNat 32 = 0x0720 by decide) rfl
  refine ⟨fun k hk => ?_, fun k hk => ?_⟩
  · rw [hsame k (by omega)]
    obtain ⟨i, j, hi, hi', rfl⟩ := exists_cellAt k
    rw [hclear i j ⟨hi, hi'⟩]
    exact if_neg (by rw [cellAt] at hk; omega)
  · rw [hsame k (by omega)]
    obtain ⟨i, j, hi, hi', rfl⟩ := exists_cellAt k
    rw [hclear i j ⟨hi, hi'⟩]
    exact if_pos (by rw [cellAt] at hk; omega)

/-- The first round. -/
theorem framebuf_run_first :
    let d := Display.start (Ui.start 3 none none false
      ⟨ascii "/", [], true, Viewer.init, true, [], [], []⟩ [] []) (ascii "ftp.host") fun _ => 7
    (∀ k, k < 0 ∨ 2000 ≤ k → (d.run [.update]).tg.framebuf k = 7) ∧
      ∀ k, 1920 ≤ k ∧ k < 2000 → (d.run [.update]).tg.framebuf k = 0x0720 := by
  refine framebuf_run 3 none none false ⟨ascii "/", [], true, Viewer.init, true, [], [], []⟩ [] []
    (ascii "ftp.host") (fun _ => 7) [.update] fun past hpast _ => ?_
  obtain rfl : past = [] := by
    have hlen := hpast.length_le
    simpa using hlen
  exact ⟨by decide, by rintro x hx; cases hx⟩

end Visftp
