import Visftp.Conversation
import Visftp.ListDrawing
import Visftp.MainLoop

/-!
# What is on the screen

`Visftp.MainLoop` leaves out what is drawn. Here it is put beside it: the screen, and what `main.c`
and `tui.c` remember of what has to be drawn. The flag `dirty` of a list is the list's own; it is
cleared here, where the list is drawn.

What the callbacks `xfer_done` and `view_done` do to `cur_xfer` and to the flags is read off the
history: which transfers were made, and of which the callback was called. `view_done` is the
callback of the transfers that go to memory.

## Main definitions

* `Display` — the state
* `Display.redraw`, `Display.updateui`, `Display.viewUpdate` — what is drawn
* `Display.step`, `Display.run` — whole runs
-/

namespace Visftp

open CString

/-- `dirty` of `main.c`, by its bits. -/
structure UiDirty where
  /-- `UI_STATUS` -/
  status : Bool
  /-- `UI_XFER` -/
  xfer : Bool
  /-- `UI_CONLINE` -/
  conline : Bool
  /-- `UI_BUTTONS` -/
  buttons : Bool
  deriving DecidableEq, Repr

/-- `0xffff` -/
def UiDirty.all : UiDirty := ⟨true, true, true, true⟩

/-- The program with its screen. -/
structure Display where
  ui : Ui
  tg : Tg
  optHost : Bytes
  dirty : UiDirty
  /-- The field `focus` of the lists. -/
  hasFocus : Pane → Bool
  /-- `cur_xfer`, the address of a transfer. -/
  curXfer : Option ℕ
  /-- `prev_status` of `updateui` -/
  prevStatus : Status
  /-- `prev_xfer` of `updateui`, of which only the test for null is used. -/
  prevXfer : Bool

/-- The column in which the list of a pane begins. -/
def Pane.left : Pane → Int
  | .remote => 0
  | .localdir => 40

namespace Display

/-! ### Flags -/

/-- Set the flag `dirty` of a list. -/
def mark (b : Bool) (p : Pane) (d : Display) : Display :=
  { d with ui := d.ui.mapList p fun w => { w with dirty := b } }

/-- `tui_invalidate` -/
def tuiInvalidate (p : Pane) (d : Display) : Display := d.mark true p

/-- `tui_focus`. The lists have no callback. -/
def tuiFocus (p : Pane) (focus : Bool) (d : Display) : Display :=
  if d.hasFocus p = focus then d
  else { d.mark true p with hasFocus := Function.update d.hasFocus p focus }

/-- `act_redraw` -/
def redraw (d : Display) : Display :=
  { (d.tuiInvalidate .remote).tuiInvalidate .localdir with dirty := .all }

/-! ### Drawing -/

/-- Draw to the screen. -/
def draw (f : Tg → Tg) (d : Display) : Display := { d with tg := f d.tg }

/-- `tui_draw` of a list. -/
def tuiDraw (p : Pane) (d : Display) : Display :=
  (d.draw (drawList (d.ui.uilist p) p.left 1 40 (d.hasFocus p))).mark false p

end Display

/-- A line of ten buttons: their numbers and their texts. -/
def drawButtons (bntext : List Bytes) (t : Tg) : Tg :=
  bntext.zipIdx.foldl (fun t b =>
    let t := tgBgcolor Color.black.code (tgFgcolor Color.white.code t)
    let t := tgText (8 * b.2) 23 (buttonNumber (b.2 + 1)) t
    let t := tgBgcolor Color.cyan.code (tgFgcolor Color.black.code t)
    tgText (8 * b.2 + 2) 23 b.1 t) t

/-- The texts of the buttons of `updateui`. -/
def uiButtons (focus : Pane) : List Bytes :=
  ["Help  ", "      ", "View  ", "      ", if focus = .localdir then "Upload" else "Downld",
    "      ", "Mkdir ", "Delete", "PullDn", "Quit  "].map ascii

/-- What `updateui` prints of the amount of a transfer, where a `long` has `long` bits. -/
def progressText (long : ℕ) (x : XferData) : Bytes :=
  if x.total = 0 then ascii " ???%"
  else
    let progr := ((100 * x.count).bmod (2 ^ long)).tdiv x.total
    let progr := if progr < 0 then 0 else progr
    let progr := if 100 < progr then 100 else progr
    let digits := decimal progr.toNat
    ascii " " ++ List.replicate (3 - digits.length) 32 ++ digits ++ ascii "%"

/-- The line of `updateui` for the server. -/
def statusText (status : Status) (optHost : Bytes) : Bytes :=
  ascii "Srv: " ++ if status ≠ .disc then cstr optHost else ascii "-"

/-- The callback is called of a transfer that goes to memory. -/
def Event.isView {α : Type} (w : World α) : Event → Bool
  | .done t => (w.xfers t).mem.isSome
  | _ => false

/-- `cur_xfer` after these events, newest first. -/
def lastXfer : List Event → Option ℕ → Option ℕ
  | [], x => x
  | .made t _ :: _, _ => some t
  | .done _ :: _, _ => none
  | _ :: past, x => lastXfer past x

namespace Display

/-- `ftp->status != prev_status || (dirty & UI_STATUS)` -/
def statusDue (d : Display) : Bool := d.ui.world.ftp.status ≠ d.prevStatus ∨ d.dirty.status

/-- The part of `updateui` for the line of the server. -/
def drawStatus (d : Display) : Display :=
  if d.statusDue then
    { d.draw fun t =>
        let fg := if d.ui.world.ftp.status ≠ .disc then Color.green else .red
        let t := tgBgcolor Color.black.code (tgFgcolor fg.code t)
        tgText 0 0 (statusText d.ui.world.ftp.status d.optHost) (tgRect none 0 0 40 1 false t) with
      prevStatus := d.ui.world.ftp.status }
  else d

/-- `updateui` prints the transfer, or where it was. -/
def xferDue (d : Display) : Bool := d.curXfer.isSome ∨ d.prevXfer ∨ d.dirty.xfer

/-- The part of `updateui` for the transfer, with the 32-bit `long` of DOS. -/
def drawXfer (d : Display) : Display :=
  { d.draw fun t =>
      let t := tgBgcolor Color.black.code (tgFgcolor Color.white.code t)
      match d.curXfer with
      | some x =>
        let xfer := (d.ui.world.xfers x).toXferData
        let t := tgText 40 0 (tgGchar (xfer.op = .retr) :: cstr xfer.rname) t
        tgText 75 0 (progressText 32 xfer) t
      | none => if d.xferDue then tgRect none 40 0 40 1 false t else t with
    prevXfer := d.curXfer.isSome }

/-- The bit `1` of `upd`: the title of the remote list changes, or its entries. -/
def remoteDue (d : Display) : Bool :=
  (∃ remdir ∈ d.ui.world.ftp.curdir, (d.ui.uilist .remote).title ≠ remdir) ∨ d.ui.world.ftp.modified

/-- The bit `2` of `upd`. -/
def localDue (d : Display) : Bool :=
  d.ui.world.app.localModified ∨ (d.ui.uilist .localdir).title ≠ d.ui.world.app.curdir

/-- The part of `updateui` that draws a list. -/
def drawPane (p : Pane) (due : Bool) (d : Display) : Display :=
  if (d.ui.uilist p).dirty ∨ due then d.tuiDraw p else d

/-- The part of `updateui` for the last two lines. -/
def drawLines (d : Display) : Display :=
  d.draw fun t =>
    let t := if d.dirty.conline then
        tgRect none 0 22 80 1 false (tgFgcolor Color.white.code (tgBgcolor Color.black.code t))
      else t
    if d.dirty.buttons then drawButtons (uiButtons d.ui.focus) t else t

/-- `updateui` -/
def updateui (d : Display) : Display :=
  let upd := d.statusDue ∨ d.xferDue ∨ d.remoteDue ∨ d.localDue ∨ d.dirty.conline ∨ d.dirty.buttons
  let remote := d.remoteDue
  let localdir := d.localDue
  let d := d.drawStatus.drawXfer
  let d := { d with ui := d.ui.updateui }
  let d := ((d.drawPane .remote remote).drawPane .localdir localdir).drawLines
  if upd then { d with dirty := ⟨false, false, false, false⟩ } else d

end Display

/-- A call into `tgfx.c`. -/
def Draw.paint : Draw → Tg → Tg
  | .rect x y width height => tgRect none x y width height false
  | .frame title x y width height => tgRect title x y width height true
  | .putchar x y c => tgPutchar x y c.toNat
  | .text x y s => tgText x y s

/-- What `view_update` draws of the lines. -/
def viewText (v : Viewer) : List Draw :=
  (viewReads v).zipIdx.flatMap fun k => drawLine v.hscroll (k.2 + 1) 0 (v.line k.1)

/-- What `view_update` draws, with its colours. -/
def viewPaint (v : Viewer) (t : Tg) : Tg :=
  let t := if v.dirtyFrame then
      let t := tgBgcolor Color.blue.code (tgFgcolor Color.white.code t)
      (Draw.frame v.title 0 0 80 23).paint t
    else t
  let t := if v.dirtyText then
      let t := tgBgcolor Color.blue.code (tgFgcolor Color.white.code t)
      (viewText v).foldl (fun t d => d.paint t) t
    else t
  if v.dirtyButtons then drawButtons viewButtons t else t

namespace Display

/-- The case of the tab in `keypress`. -/
def switchFocus (old new : Pane) (d : Display) : Display :=
  let d := (d.tuiFocus old false).tuiFocus new true
  { d with dirty := { d.dirty with buttons := true } }

/-- What the callbacks have done to `cur_xfer` and to the flags, when the rest of the program has
gone on to `ui`. -/
def absorb (ui : Ui) (d : Display) : Display :=
  let new := (calls ui.world.log).take ((calls ui.world.log).length - (calls d.ui.world.log).length)
  let d' := { d with ui := ui, curXfer := lastXfer new d.curXfer }
  if new.any (Event.isView ui.world) then d'.redraw else d'

/-- The steps of the main loop before the screen is brought up to date: the callbacks, and what
`keypress` does to the flags. -/
def act (i : UiInput) (d : Display) : Display :=
  let ui := d.ui.step i
  let d' := d.absorb ui
  match i with
  | .key _ k =>
    if d.ui.world.app.viewer.isOpen then d'
    else match k with
      | .tab => d'.switchFocus d.ui.focus ui.focus
      | .backquote => d'.redraw
      | .f3 =>
        -- `view_memopen` of a local file
        if d.ui.focus = .localdir ∧ ui.world.app.viewer.isOpen then d'.redraw else d'
      | _ => d'
  | _ => d'

/-- One step of the main loop. -/
def step (d : Display) (i : UiInput) : Display :=
  if d.ui.running then
    match i with
    | .update =>
      if d.ui.world.app.viewer.isOpen then
        { d.draw (viewPaint d.ui.world.app.viewer) with ui := d.ui.step .update }
      else d.updateui
    | i => d.act i
  else d

/-- The steps of a run, one after the other. -/
def run (d : Display) (inputs : List UiInput) : Display := inputs.foldl step d

@[simp] theorem run_append_singleton (d : Display) (inputs : List UiInput) (i : UiInput) :
    d.run (inputs ++ [i]) = (d.run inputs).step i := by
  simp [run]

/-- The program before its first round: the screen is cleared, and the remote pane has the focus. -/
def start (ui : Ui) (optHost : Bytes) (framebuf : Int → UInt16) : Display :=
  tuiFocus .remote true
    { ui, optHost
      tg := tgClear (tgBgchar 32 (Tg.init framebuf))
      dirty := .all
      hasFocus := fun _ => false
      curXfer := none
      prevStatus := .disc
      prevXfer := false }

end Display

end Visftp
