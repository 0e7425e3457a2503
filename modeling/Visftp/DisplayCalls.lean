import Visftp.UnixTgfx
import Visftp.ViewerRuns

/-!
# What the program draws, call by call

The program draws through the functions of `tgfx.h` only, and does not look at the screen. So what
it draws in a run is a list of calls, which either version of the functions can carry out: those of
`dos/tgfx.c` give the screen of `Visftp.Display`, and those of `unix/tgfx.c` draw in curses. The
things in a call that depend on the version are the arrow of `tg_gchar` and the size of a `long`, in
which the progress of a transfer is computed.

Everything is drawn in one of nine pairs of colours, so that on a terminal with at least nine
colours the unix version draws everything in its colours. On one with eight there is a pair too
many.

## Main definitions

* `TgCall.paint`, `paints` — the calls, in the DOS version
* `Version` — what of a version shows in the calls
* `Display.drawCalls` — the calls of a run
* `palette` — the colours of the program
* `Colored` — calls that draw in these colours

## Main results

* `Display.tg_run` — the DOS version gives the screen of `Visftp.Display`
* `Display.colored_drawCalls` — a run draws in the nine pairs
* `display_calls_run` — both versions in whole runs
-/

namespace Visftp

open CString

/-- A call, in the DOS version. `tg_redraw` is empty there, and the cursor is left out. -/
def TgCall.paint : TgCall → Tg → Tg
  | .redraw => id
  | .clear => tgClear
  | .fgcolor col => tgFgcolor col.code
  | .bgcolor col => tgBgcolor col.code
  | .color fg bg => tgColor (fg.code ||| bg.code <<< 4)
  | .bgchar c => tgBgchar c
  | .setcursor _ _ => id
  | .putchar x y c => tgPutchar x y c.toNat
  | .text x y s => tgText x y s
  | .rect label x y xsz ysz frame => tgRect label x y xsz ysz frame

/-- The calls of a run in the DOS version, one after the other. -/
def paints (calls : List TgCall) (t : Tg) : Tg := calls.foldl (fun t call => call.paint t) t

/-! ### The calls of the program -/

/-- The body of the loop of `draw_list`. -/
def rowCalls (w : TuiList) (focus : Bool) (x y maxlen : Int) (i : ℕ) : List TgCall :=
  let idx := i + w.viewOffs
  match w.entry idx with
  | none => []
  | some e =>
    let text := (cstr e.text).take maxlen.toNat
    let y := y + i + 1
    if focus ∧ idx = w.cur then
      [.bgcolor .cyan, .fgcolor (if e.sel then .yellow else .blue), .rect none x y maxlen 1 false,
        .text x y text, .bgcolor .blue, .fgcolor (if e.sel then .yellow else .cyan)]
    else [.fgcolor (if e.sel then .yellow else .cyan), .text x y text]

/-- `draw_list` -/
def listCalls (w : TuiList) (x y width : Int) (focus : Bool) : List TgCall :=
  [.bgcolor .blue, .fgcolor .cyan, .rect (some w.title) x y width w.height true] ++
    (List.range w.numDrawn.toNat).flatMap (rowCalls w focus (x + 1) y (width - 2))

/-- A line of ten buttons. -/
def buttonCalls (bntext : List Bytes) : List TgCall :=
  bntext.zipIdx.flatMap fun b =>
    [.fgcolor .white, .bgcolor .black, .text (8 * b.2) 23 (buttonNumber (b.2 + 1)),
      .fgcolor .black, .bgcolor .cyan, .text (8 * b.2 + 2) 23 b.1]

/-- What `view_update` draws without colours. -/
def Draw.call : Draw → TgCall
  | .rect x y width height => .rect none x y width height false
  | .frame title x y width height => .rect title x y width height true
  | .putchar x y c => .putchar x y c
  | .text x y s => .text x y s

/-- `view_update` -/
def viewCalls (v : Viewer) : List TgCall :=
  (if v.dirtyFrame then
      [.fgcolor .white, .bgcolor .blue, (Draw.frame v.title 0 0 80 23).call]
    else []) ++
  (if v.dirtyText then [.fgcolor .white, .bgcolor .blue] ++ (viewText v).map Draw.call else []) ++
  (if v.dirtyButtons then buttonCalls viewButtons else []) ++
  if v.dirtyFrame ∨ v.dirtyText ∨ v.dirtyButtons then [.redraw] else []

/-- What of a version shows in its calls: what `%c` makes of the arrow, and the bits of a `long`. -/
structure Version where
  gchar : Bool → Byte
  long : ℕ

/-- The version for DOS. -/
def Version.dos : Version := ⟨tgGchar, 32⟩

namespace Display

/-- The part of `updateui` for the line of the server. -/
def statusCalls (d : Display) : List TgCall :=
  if d.statusDue then
    [.fgcolor (if d.ui.world.ftp.status ≠ .disc then .green else .red), .bgcolor .black,
      .rect none 0 0 40 1 false, .text 0 0 (statusText d.ui.world.ftp.status d.optHost)]
  else []

/-- The part of `updateui` for the transfer. -/
def xferCalls (ver : Version) (d : Display) : List TgCall :=
  [.fgcolor .white, .bgcolor .black] ++
    match d.curXfer with
    | some x =>
      let xfer := (d.ui.world.xfers x).toXferData
      [.text 40 0 (ver.gchar (xfer.op = .retr) :: cstr xfer.rname),
        .text 75 0 (progressText ver.long xfer)]
    | none => if d.xferDue then [.rect none 40 0 40 1 false] else []

/-- The part of `updateui` that draws a list, through `tui_draw`. -/
def paneCalls (p : Pane) (due : Bool) (d : Display) : List TgCall :=
  if (d.ui.uilist p).dirty ∨ due then
    listCalls (d.ui.uilist p) p.left 1 40 (d.hasFocus p) ++ [.redraw]
  else []

/-- The part of `updateui` for the last two lines. -/
def lineCalls (d : Display) : List TgCall :=
  (if d.dirty.conline then
      [.bgcolor .black, .fgcolor .white, .rect none 0 22 80 1 false]
    else []) ++
  if d.dirty.buttons then buttonCalls (uiButtons d.ui.focus) else []

/-- `updateui` -/
def updateCalls (ver : Version) (d : Display) : List TgCall :=
  let upd := d.statusDue ∨ d.xferDue ∨ d.remoteDue ∨ d.localDue ∨ d.dirty.conline ∨ d.dirty.buttons
  let told := d.drawStatus.drawXfer
  let filled := { told with ui := told.ui.updateui }
  let remote := filled.drawPane .remote d.remoteDue
  d.statusCalls ++ d.drawStatus.xferCalls ver ++ filled.paneCalls .remote d.remoteDue ++
    remote.paneCalls .localdir d.localDue ++ (remote.drawPane .localdir d.localDue).lineCalls ++
    if upd then [.redraw] else []

/-- One step of the main loop. -/
def stepCalls (ver : Version) (d : Display) (i : UiInput) : List TgCall :=
  if d.ui.running then
    match i with
    | .update =>
      if d.ui.world.app.viewer.isOpen then viewCalls d.ui.world.app.viewer
      else d.updateCalls ver
    | _ => []
  else []

/-- The calls of a run. -/
def drawCalls (ver : Version) (d : Display) : List UiInput → List TgCall
  | [] => []
  | i :: inputs => d.stepCalls ver i ++ drawCalls ver (d.step i) inputs

end Display

/-- What `main` draws before its loop. -/
def startCalls : List TgCall := [.bgchar 32, .clear, .setcursor 0 23]

/-! ### The DOS version -/

theorem paints_append (a b : List TgCall) (t : Tg) : paints (a ++ b) t = paints b (paints a t) :=
  List.foldl_append

theorem paints_flatMap {ι : Type*} (l : List ι) (f : ι → List TgCall) (t : Tg) :
    paints (l.flatMap f) t = l.foldl (fun t i => paints (f i) t) t := by
  induction l generalizing t with
  | nil => rfl
  | cons i l ih => rw [List.flatMap_cons, paints_append, ih, List.foldl_cons]

theorem paints_rowCalls (w : TuiList) (focus : Bool) (x y maxlen : Int) (i : ℕ) (t : Tg) :
    paints (rowCalls w focus x y maxlen i) t = drawRow w focus x y maxlen t i := by
  rw [rowCalls, drawRow]
  dsimp only
  cases w.entry (i + w.viewOffs) with
  | none => rfl
  | some e =>
    dsimp only
    split <;> rfl

theorem paints_listCalls (w : TuiList) (x y width : Int) (focus : Bool) (t : Tg) :
    paints (listCalls w x y width focus) t = drawList w x y width focus t := by
  rw [listCalls, paints_append, paints_flatMap, drawList]
  simp only [paints_rowCalls]
  rfl

theorem paints_buttonCalls (bntext : List Bytes) (t : Tg) :
    paints (buttonCalls bntext) t = drawButtons bntext t := by
  rw [buttonCalls, paints_flatMap]
  rfl

theorem paint_call (d : Draw) (t : Tg) : d.call.paint t = d.paint t := by
  cases d <;> rfl

theorem paints_map_call (ds : List Draw) (t : Tg) :
    paints (ds.map Draw.call) t = ds.foldl (fun t d => d.paint t) t := by
  induction ds generalizing t with
  | nil => rfl
  | cons d ds ih =>
    rw [List.map_cons, List.foldl_cons, ← paint_call]
    exact ih _

/-- A redraw at the end draws nothing. -/
theorem paints_redraw (cond : Prop) [Decidable cond] (t : Tg) :
    paints (if cond then [.redraw] else []) t = t := by
  split <;> rfl

theorem paints_viewCalls (v : Viewer) (t : Tg) : paints (viewCalls v) t = viewPaint v t := by
  rw [viewCalls, paints_append, paints_append, paints_append, paints_redraw, viewPaint]
  dsimp only
  have hframe : paints (if v.dirtyFrame then
        [.fgcolor .white, .bgcolor .blue, (Draw.frame v.title 0 0 80 23).call] else []) t =
      if v.dirtyFrame then (Draw.frame v.title 0 0 80 23).paint
        (tgBgcolor Color.blue.code (tgFgcolor Color.white.code t)) else t := by
    split <;> rfl
  have htext : ∀ t, paints (if v.dirtyText then
        [.fgcolor .white, .bgcolor .blue] ++ (viewText v).map Draw.call else []) t =
      if v.dirtyText then (viewText v).foldl (fun t d => d.paint t)
        (tgBgcolor Color.blue.code (tgFgcolor Color.white.code t)) else t := by
    intro t
    split
    · rw [paints_append, paints_map_call]
      rfl
    · rfl
  rw [hframe, htext]
  split
  · exact paints_buttonCalls _ _
  · rfl

namespace Display

variable {d : Display}

theorem tg_drawStatus (d : Display) : d.drawStatus.tg = paints d.statusCalls d.tg := by
  rw [drawStatus, statusCalls]
  split
  · show tgText 0 0 _ _ = _
    split <;> rfl
  · rfl

theorem tg_drawXfer (d : Display) : d.drawXfer.tg = paints (d.xferCalls .dos) d.tg := by
  rw [drawXfer, xferCalls, paints_append, draw]
  dsimp only
  cases d.curXfer with
  | none =>
    dsimp only
    split <;> rfl
  | some x => rfl

theorem tg_drawPane (p : Pane) (due : Bool) (d : Display) :
    (d.drawPane p due).tg = paints (d.paneCalls p due) d.tg := by
  rw [drawPane, paneCalls]
  split
  · rw [paints_append, paints_listCalls]
    rfl
  · rfl

theorem tg_drawLines (d : Display) : d.drawLines.tg = paints d.lineCalls d.tg := by
  rw [drawLines, lineCalls, paints_append, draw]
  dsimp only
  by_cases hbuttons : d.dirty.buttons = true
  · rw [if_pos hbuttons, if_pos hbuttons, paints_buttonCalls]
    split <;> rfl
  · rw [if_neg hbuttons, if_neg hbuttons]
    split <;> rfl

theorem tg_updateui (d : Display) : d.updateui.tg = paints (d.updateCalls .dos) d.tg := by
  rw [updateCalls]
  simp only [paints_append, paints_redraw]
  rw [← tg_drawStatus, ← tg_drawXfer]
  have hpanes : ∀ e : Display, paints ((e.drawPane .remote d.remoteDue).drawPane .localdir
      d.localDue).lineCalls (paints ((e.drawPane .remote d.remoteDue).paneCalls .localdir
        d.localDue) (paints (e.paneCalls .remote d.remoteDue) e.tg)) =
      ((e.drawPane .remote d.remoteDue).drawPane .localdir d.localDue).drawLines.tg := by
    intro e
    rw [← tg_drawPane, ← tg_drawPane, ← tg_drawLines]
  rw [updateui]
  split
  · exact (hpanes { d.drawStatus.drawXfer with ui := d.drawStatus.drawXfer.ui.updateui }).symm
  · exact (hpanes { d.drawStatus.drawXfer with ui := d.drawStatus.drawXfer.ui.updateui }).symm

/-- One step: what is drawn are its calls. -/
theorem tg_step (d : Display) (i : UiInput) :
    (d.step i).tg = paints (d.stepCalls .dos i) d.tg := by
  rw [step.eq_def, stepCalls.eq_def]
  split
  · cases i with
    | update =>
      dsimp only
      split
      · exact (paints_viewCalls _ _).symm
      · exact tg_updateui d
    | _ => exact tg_act _
  · rfl

/-- **The DOS version** gives the screen of the display. -/
theorem tg_run (d : Display) (inputs : List UiInput) :
    (d.run inputs).tg = paints (d.drawCalls .dos inputs) d.tg := by
  induction inputs generalizing d with
  | nil => rfl
  | cons i inputs ih =>
    rw [drawCalls, paints_append, ← tg_step]
    exact ih (d.step i)

end Display

/-! ### Colours -/

/-- The pairs of colours that the program draws in. -/
def palette : List TgColors :=
  [⟨.green, .black⟩, ⟨.red, .black⟩, ⟨.white, .black⟩, ⟨.black, .cyan⟩, ⟨.cyan, .blue⟩,
    ⟨.yellow, .blue⟩, ⟨.blue, .cyan⟩, ⟨.yellow, .cyan⟩, ⟨.white, .blue⟩]

/-- The colours that are set after some calls. -/
def recolors (calls : List TgCall) (p : TgColors) : TgColors :=
  calls.foldl (fun p call => call.recolor p) p

theorem drawnColors_append (a b : List TgCall) (p : TgColors) :
    drawnColors (a ++ b) p = drawnColors a p ++ drawnColors b (recolors a p) := by
  induction a generalizing p with
  | nil => rfl
  | cons call a ih =>
    rw [List.cons_append, drawnColors, drawnColors, ih, List.append_assoc]
    rfl

/-- **Calls that draw in the colours of the program**, from colours with one property to colours
with another. -/
structure Colored (P : TgColors → Prop) (calls : List TgCall) (Q : TgColors → Prop) : Prop where
  drawn : ∀ p, P p → ∀ q ∈ drawnColors calls p, q ∈ palette
  after : ∀ p, P p → Q (recolors calls p)

namespace Colored

variable {P Q R : TgColors → Prop} {a b : List TgCall}

theorem nil : Colored P [] P where
  drawn _ _ _ hq := absurd hq List.not_mem_nil
  after _ hp := hp

theorem append (ha : Colored P a Q) (hb : Colored Q b R) : Colored P (a ++ b) R where
  drawn p hp q hq := by
    rw [drawnColors_append] at hq
    rcases List.mem_append.mp hq with hq | hq
    · exact ha.drawn p hp q hq
    · exact hb.drawn _ (ha.after p hp) q hq
  after p hp := by
    rw [recolors, List.foldl_append]
    exact hb.after _ (ha.after p hp)

theorem imp (h : Colored P a Q) (hQ : ∀ p, Q p → R p) : Colored P a R :=
  ⟨h.drawn, fun p hp => hQ _ (h.after p hp)⟩

theorem flatMap {ι : Type*} {l : List ι} {f : ι → List TgCall} (h : ∀ i, Colored P (f i) P) :
    Colored P (l.flatMap f) P := by
  induction l with
  | nil => exact nil
  | cons i l ih =>
    rw [List.flatMap_cons]
    exact (h i).append ih

end Colored

/-- Any colours. -/
abbrev AnyColors : TgColors → Prop := fun _ => True

/-- What is drawn under a condition, from any colours. -/
theorem Colored.ite {cond : Prop} [Decidable cond] {a : List TgCall}
    (h : Colored AnyColors a AnyColors) :
    Colored AnyColors (if cond then a else []) AnyColors := by
  split
  · exact h
  · exact .nil

theorem colored_redraw : Colored AnyColors [.redraw] AnyColors :=
  ⟨fun _ _ _ hq => absurd hq List.not_mem_nil, fun _ _ => trivial⟩

/-- A row begins and ends on blue. -/
theorem colored_rowCalls (w : TuiList) (focus : Bool) (x y maxlen : Int) (i : ℕ) :
    Colored (fun p => p.bg = .blue) (rowCalls w focus x y maxlen i) fun p => p.bg = .blue := by
  rw [rowCalls]
  dsimp only
  split
  · exact .nil
  next e _ =>
  split
  · refine ⟨fun p _ q hq => ?_, fun p _ => rfl⟩
    simp only [drawnColors, TgCall.recolor, TgCall.draws, Bool.false_eq_true, if_false, if_true,
      List.nil_append, List.singleton_append, List.mem_cons, List.not_mem_nil, or_false,
      or_self] at hq
    rw [hq]
    cases e.sel <;> decide
  · refine ⟨fun p hp q hq => ?_, fun p hp => hp⟩
    simp only [drawnColors, TgCall.recolor, TgCall.draws, Bool.false_eq_true, if_false, if_true,
      List.nil_append, List.singleton_append, List.mem_cons, List.not_mem_nil, or_false] at hq
    rw [hq, hp]
    cases e.sel <;> decide

theorem colored_listCalls (w : TuiList) (x y width : Int) (focus : Bool) :
    Colored AnyColors (listCalls w x y width focus) AnyColors := by
  have hframe : Colored AnyColors [.bgcolor .blue, .fgcolor .cyan,
      .rect (some w.title) x y width w.height true] fun p => p.bg = .blue := by
    refine ⟨fun p _ q hq => ?_, fun p _ => rfl⟩
    obtain rfl : q = ⟨.cyan, .blue⟩ := by simpa [drawnColors, TgCall.recolor, TgCall.draws] using hq
    decide
  exact (hframe.append (.flatMap (colored_rowCalls w focus (x + 1) y (width - 2)))).imp
    fun _ _ => trivial

theorem colored_buttonCalls (bntext : List Bytes) :
    Colored AnyColors (buttonCalls bntext) AnyColors := by
  refine .flatMap fun b => ⟨fun p _ q hq => ?_, fun _ _ => trivial⟩
  obtain rfl | rfl : q = ⟨.white, .black⟩ ∨ q = ⟨.black, .cyan⟩ := by
    simpa [drawnColors, TgCall.recolor, TgCall.draws] using hq
  · decide
  · decide

/-- What is drawn without setting colours is drawn in those of the viewer's text. -/
theorem colored_map_call (ds : List Draw) :
    Colored (fun p => p = ⟨.white, .blue⟩) (ds.map Draw.call) fun p => p = ⟨.white, .blue⟩ := by
  induction ds with
  | nil => exact .nil
  | cons d ds ih =>
    refine .append (a := [d.call]) (Q := fun p => p = ⟨.white, .blue⟩) ⟨?_, ?_⟩ ih
    · rintro p rfl q hq
      obtain rfl : q = ⟨.white, .blue⟩ := by
        cases d <;> simpa [Draw.call, drawnColors, TgCall.draws] using hq
      decide
    · rintro p rfl
      cases d <;> rfl

theorem colored_viewCalls (v : Viewer) : Colored AnyColors (viewCalls v) AnyColors := by
  have hset : Colored AnyColors [.fgcolor .white, .bgcolor .blue] fun p => p = ⟨.white, .blue⟩ :=
    ⟨fun p _ q hq => absurd hq List.not_mem_nil, fun p _ => rfl⟩
  have htext : ∀ ds : List Draw, Colored AnyColors
      ([.fgcolor .white, .bgcolor .blue] ++ ds.map Draw.call) AnyColors := fun ds =>
    (hset.append (colored_map_call ds)).imp fun _ _ => trivial
  exact ((Colored.ite (htext [Draw.frame v.title 0 0 80 23])).append
    (Colored.ite (htext (viewText v)))).append (Colored.ite (colored_buttonCalls viewButtons))
    |>.append (Colored.ite colored_redraw)

namespace Display

theorem colored_statusCalls (d : Display) : Colored AnyColors d.statusCalls AnyColors := by
  refine Colored.ite ⟨fun p _ q hq => ?_, fun _ _ => trivial⟩
  simp only [drawnColors, TgCall.recolor, TgCall.draws, Bool.false_eq_true, if_false, if_true,
    List.nil_append, List.singleton_append, List.append_nil, List.mem_cons, List.not_mem_nil,
    or_false, or_self] at hq
  rw [hq]
  split <;> decide

theorem colored_xferCalls (ver : Version) (d : Display) :
    Colored AnyColors (d.xferCalls ver) AnyColors := by
  rw [xferCalls]
  refine ⟨fun p _ q hq => ?_, fun _ _ => trivial⟩
  obtain rfl : q = ⟨.white, .black⟩ := by
    split at hq
    · simpa [drawnColors, TgCall.recolor, TgCall.draws] using hq
    split at hq
    · simpa [drawnColors, TgCall.recolor, TgCall.draws] using hq
    · exact absurd hq List.not_mem_nil
  decide

theorem colored_paneCalls (p : Pane) (due : Bool) (d : Display) :
    Colored AnyColors (d.paneCalls p due) AnyColors :=
  Colored.ite ((colored_listCalls _ _ _ _ _).append colored_redraw)

theorem colored_lineCalls (d : Display) : Colored AnyColors d.lineCalls AnyColors := by
  refine (Colored.ite ⟨fun p _ q hq => ?_, fun _ _ => trivial⟩).append
    (Colored.ite (colored_buttonCalls _))
  obtain rfl : q = ⟨.white, .black⟩ := by
    simpa [drawnColors, TgCall.recolor, TgCall.draws] using hq
  decide

theorem colored_stepCalls (ver : Version) (d : Display) (i : UiInput) :
    Colored AnyColors (d.stepCalls ver i) AnyColors := by
  rw [stepCalls.eq_def]
  refine Colored.ite ?_
  cases i with
  | update =>
    dsimp only
    split
    · exact colored_viewCalls _
    · exact (((((colored_statusCalls d).append (colored_xferCalls ver _)).append
        (colored_paneCalls _ _ _)).append (colored_paneCalls _ _ _)).append
        (colored_lineCalls _)).append (Colored.ite colored_redraw)
  | _ => exact .nil

/-- **The nine pairs**: whatever colours are set before, a run draws in no others. -/
theorem colored_drawCalls (ver : Version) (d : Display) (inputs : List UiInput) :
    Colored AnyColors (d.drawCalls ver inputs) AnyColors := by
  induction inputs generalizing d with
  | nil => exact .nil
  | cons i inputs ih =>
    rw [drawCalls]
    exact (colored_stepCalls ver d i).append (ih (d.step i))

end Display

/-- **Both versions in whole runs.** The calls of a run give, in the DOS version, the screen of the
display. In the unix version, on a terminal with at least nine colours and more pairs than colours,
at every moment the last drawing is in the colours that were set for it. -/
theorem display_calls_run {σ : Type*} {c : Curses σ} (hc : c.Documented) (h9 : 9 ≤ c.colors)
    (hpairs : c.colors < c.colorPairs) (ctl : Fd) (user pass : Option Bytes) (short : Bool)
    (screen : Screen) (fopens : List (Option Bytes)) (reads : List FileRead) (optHost : Bytes)
    (framebuf : Int → UInt16) (ver : Version) (inputs : List UiInput) :
    let d := Display.start (Ui.start ctl user pass short screen fopens reads) optHost framebuf
    (d.run inputs).tg = paints (startCalls ++ d.drawCalls .dos inputs) (Tg.init framebuf) ∧
      ∀ past, past <+: startCalls ++ d.drawCalls ver inputs →
        ∀ p, (drawnColors past ⟨.white, .black⟩).getLast? = some p →
          p ∈ palette ∧
            (UnixTg.run c (UnixTg.tgInit c) past).shown c = some (cursesPair p) := by
  intro d
  refine ⟨?_, ?_⟩
  · rw [paints_append]
    exact Display.tg_run d inputs
  rintro past ⟨rest, hpast⟩ p hp
  have hdrawn : ∀ q ∈ drawnColors past ⟨.white, .black⟩, q ∈ palette := by
    intro q hq
    have hall : q ∈ drawnColors (startCalls ++ d.drawCalls ver inputs) ⟨.white, .black⟩ := by
      rw [← hpast, drawnColors_append]
      exact List.mem_append_left _ hq
    rw [drawnColors_append] at hall
    rcases List.mem_append.mp hall with hstart | hrun
    · exact absurd hstart List.not_mem_nil
    · exact (Display.colored_drawCalls ver d inputs).drawn _ trivial q hrun
  have hmem := List.mem_of_getLast? hp
  refine ⟨hdrawn p hmem, ?_⟩
  obtain ⟨p', h⟩ := (UnixTg.Tracks.tgInit c).run hc (by omega) hpairs past
  have hfew : (drawnColors past ⟨.white, .black⟩).eraseDups.length ≤ c.colors :=
    le_trans (FirstUses.length_eraseDups_le hdrawn) h9
  rw [h.shown_eq, (FirstUses.remembered_run_iff c.colors hp).mpr]
  · rfl
  · rw [List.take_of_length_le hfew, List.mem_eraseDups]
    exact hmem

/-- The focus goes to the local pane, on a terminal with 256 colours. -/
theorem display_calls_run_tab :
    let d := Display.start (Ui.start 3 none none false
      ⟨ascii "/", [], true, Viewer.init, true, [], [], []⟩ [] []) (ascii "ftp.host") fun _ => 0
    let c := terminal 256 65536
    let inputs := [UiInput.update, .key Env.quiet .tab, .update]
    (d.run inputs).tg = paints (startCalls ++ d.drawCalls .dos inputs) (Tg.init fun _ => 0) ∧
      ∀ past, past <+: startCalls ++ d.drawCalls ⟨fun _ => 0x2b, 64⟩ inputs →
        ∀ p, (drawnColors past ⟨.white, .black⟩).getLast? = some p →
          p ∈ palette ∧
            (UnixTg.run c (UnixTg.tgInit c) past).shown c = some (cursesPair p) :=
  display_calls_run (documented_terminal 256 65536) (by decide) (by decide) 3 none none false
    ⟨ascii "/", [], true, Viewer.init, true, [], [], []⟩ [] [] (ascii "ftp.host") (fun _ => 0)
    ⟨fun _ => 0x2b, 64⟩ [.update, .key Env.quiet .tab, .update]

end Visftp
