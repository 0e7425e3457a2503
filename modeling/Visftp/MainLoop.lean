import Mathlib.Data.List.DropRight
import Visftp.TuiList
import Visftp.ViewTransfer

/-!
# The main loop

`main.c`: the two panes with their lists, the keys, and the callbacks of the transfers it makes.
The static variables that a callback reaches are the application's state of the client (`Screen`),
the others stand beside the client (`Ui`).

What the system answers to `main.c` stands in both, one list of answers for each call, in the order
in which the calls are made, as in `Env`. What is drawn is left out, with the flags that say
what has to be drawn, and so is the pointer to the transfer whose progress is shown.

An index that is not in an array is not followed into the memory behind it: the handler does
nothing more. `Ui.used` is ghost state and records every index with which a handler looks up an
entry, with the lines of the list and the entries of the array at that moment.

## Main definitions

* `Screen`, `Ui` — the state
* `updateui` — how the lists are filled
* `actActivate`, `actTransfer`, `actDelete`, `actView`, `keypress` — the keys
* `UiInput`, `Ui.step`, `Ui.run` — whole runs
-/

namespace Visftp

open CString

/-! ### The state -/

/-- The panes, an index of `uilist`. -/
inductive Pane
  | remote
  | localdir
  deriving DecidableEq, Repr

/-- What becomes of a local file that is to be viewed: `malloc`, `fopen` or `fread` fails, or it has
been read. -/
inductive FileRead
  | noMemory
  | noFile (reason : Bytes)
  | short
  | contents (b : Bytes)
  deriving DecidableEq, Repr

/-- What a callback reaches: the local directory, the viewer, and the log file as far as `main.c`
writes it. -/
structure Screen where
  curdir : Bytes
  localdir : List Dirent
  localModified : Bool
  viewer : Viewer
  /-- Ghost: `localdir` has been replaced since the list of it was filled. -/
  localOld : Bool
  logfile : List (Level × Bytes)
  /-- `opendir`, with what `readdir` and `stat` say of its entries, or `none` when it fails. -/
  dirs : List (Option (List Dirent))
  /-- `chdir`, with what `getcwd` says then, or `none` when it fails. -/
  cwds : List (Option Bytes)

/-- An index with which an entry was looked up, `none` for a slot that was never written. -/
structure Use where
  slot : Option Int
  /-- The lines of the focused list. -/
  lines : List Bytes
  /-- The entries of the focused array. -/
  ents : List Dirent

/-- The client and the static variables of `main.c` that no callback reaches. -/
structure Ui where
  world : World Screen
  uilist : Pane → TuiList
  focus : Pane
  /-- The program was built for DOS, and the system has no long file names. -/
  short : Bool
  /-- The main loop goes on. -/
  running : Bool
  /-- Ghost: how long the history was when the list of the remote directory was filled. -/
  seen : ℕ
  /-- Ghost: the indices used, newest first. -/
  used : List Use
  /-- The local files that were opened for writing, newest first. -/
  opened : List Bytes
  /-- The local files that were removed, newest first. -/
  removed : List Bytes
  /-- `fopen` for writing: `none`, or the text of an error. -/
  fopens : List (Option Bytes)
  /-- The reading of local files. -/
  reads : List FileRead

/-! ### Callbacks -/

namespace Screen

/-- Write a line to the log file. -/
def message (l : Level) (text : Bytes) (s : Screen) : Screen :=
  { s with logfile := (l, text) :: s.logfile }

/-- `update_localdir` -/
def updateLocaldir (s : Screen) : Screen :=
  match s.dirs.headD none with
  | none =>
    { s with dirs := s.dirs.tail }.message .err
      (ascii "failed to open directory: " ++ s.curdir ++ ascii "\n")
  | some ents =>
    { s with
      dirs := s.dirs.tail
      localdir := (ents.filter fun e => e.name != ascii ".").insertionSort fun a b =>
        ftpDirentcmp a b ≤ 0
      localModified := true
      localOld := true }

/-- `chdir`, and when it succeeds `getcwd` and `update_localdir`. -/
def chdir (s : Screen) : Bool × Screen :=
  match s.cwds.headD none with
  | none => (false, { s with cwds := s.cwds.tail })
  | some dir => (true, updateLocaldir { s with cwds := s.cwds.tail, curdir := dir })

/-- `xfer_done` -/
def xferDone (_ : XferData) (s : Screen) : Screen := s.updateLocaldir

/-- `view_done` -/
def viewDone (x : XferData) (s : Screen) : Screen :=
  { s with viewer := Visftp.viewDone x s.viewer }

end Screen

/-! ### The lists -/

/-- The line of the list for an entry. -/
def Dirent.rowText (ent : Dirent) : Bytes :=
  if ent.type = .dir then ent.name ++ ascii "/" else ent.name

/-- How `updateui` fills a list. -/
def TuiList.fill (ents : List Dirent) (w : TuiList) : TuiList :=
  ((ents.foldl (fun w ent => w.add ent.rowText) w.clear).setcur 0).2

namespace Ui

/-- The array that a list shows. -/
def ents (s : Ui) : Pane → List Dirent
  | .remote => s.world.ftp.dirent
  | .localdir => s.world.app.localdir

/-- Assign to what a callback reaches. -/
def mapScreen (f : Screen → Screen) (s : Ui) : Ui :=
  { s with world := { s.world with app := f s.world.app } }

/-- Change a list. -/
def mapList (p : Pane) (f : TuiList → TuiList) (s : Ui) : Ui :=
  { s with uilist := Function.update s.uilist p (f (s.uilist p)) }

/-- The focused list. -/
def list (s : Ui) : TuiList := s.uilist s.focus

/-- The part of `updateui` for the remote directory's name. -/
def updateTitle (s : Ui) : Ui :=
  match s.world.ftp.curdir with
  | some remdir =>
    if (s.uilist .remote).title ≠ remdir then s.mapList .remote fun w => { w with title := remdir }
    else s
  | none => s

/-- The part of `updateui` that fills the remote list. -/
def updateRemote (s : Ui) : Ui :=
  if s.world.ftp.modified then
    { s.mapList .remote (TuiList.fill s.world.ftp.dirent) with
      world := s.world.mapFtp fun f => { f with modified := false }
      seen := s.world.log.length }
  else s

/-- The part of `updateui` that fills the local list. -/
def updateLocal (s : Ui) : Ui :=
  if s.world.app.localModified ∨ (s.uilist .localdir).title ≠ s.world.app.curdir then
    (s.mapList .localdir fun w =>
      { TuiList.fill s.world.app.localdir w with title := s.world.app.curdir }).mapScreen fun c =>
        { c with localModified := false, localOld := false }
  else s

/-- `updateui` -/
def updateui (s : Ui) : Ui := s.updateTitle.updateRemote.updateLocal

/-! ### Keys -/

/-- `ftp_dirent`, and the same of `localdir`. -/
def entryAt (l : List Dirent) (i : Int) : Option Dirent := if 0 ≤ i then l[i.toNat]? else none

/-- Look up an entry in the focused pane. -/
def use (slot : Option Int) (s : Ui) : Option Dirent × Ui :=
  (slot.bind (entryAt (s.ents s.focus)),
    { s with used := ⟨slot, s.list.entries.map ListEntry.text, s.ents s.focus⟩ :: s.used })

/-- `ftp_queue` -/
def queue (op : Op) (h : op.transfer? = none) (s : Ui) : Ui :=
  { s with world := s.world.step s.world.env (.queue op h) }

/-- `ftp_queue_transfer` -/
def transfer (x : Xfer Screen) (s : Ui) : Ui :=
  { s with world := s.world.step s.world.env (.transfer x) }

/-- `act_activate` -/
def actActivate (s : Ui) : Ui :=
  let r := s.use (some s.list.cur)
  match r.1 with
  | none => r.2
  | some ent =>
    if ent.type = .dir then
      match s.focus with
      | .remote => r.2.queue (.chdir ent.name) rfl
      | .localdir =>
        if s.world.app.chdir.1 then r.2.mapScreen fun c => c.chdir.2
        else r.2.mapScreen fun c => c.chdir.2.message .err
          (ascii "failed to change directory: " ++ ent.name ++ ascii "\n")
    else r.2

end Ui

/-- `fixname`. The second half is compiled for DOS, and skipped when there are long file names. -/
def fixname (short : Bool) (src : Bytes) : Bytes :=
  let dest := cstr src
  if short then
    if 46 ∈ dest then
      let suffix := dest.rtakeWhile (· != 46)
      let dest := (dest.rdropWhile (· != 46)).dropLast
      dest.take 8 ++ 46 :: suffix.take 3
    else dest.take 8
  else dest

/-- The slots of `selv` that are used, of which the first ones are filled. -/
def usedSlots (r : Int × List Int) : List (Option Int) :=
  (List.range r.1.toNat).map fun i => r.2[i]?

namespace Ui

/-- The loop of `act_transfer`, in the remote pane. -/
def downloadLoop : List (Option Int) → Ui → Ui
  | [], s => s
  | slot :: slots, s =>
    let r := s.use slot
    match r.1 with
    | none => r.2
    | some ent =>
      let lname := fixname s.short ent.name
      match s.fopens.headD none with
      | some reason => { r.2 with fopens := s.fopens.tail }.mapScreen fun c => c.message .err
          (ascii "failed to open " ++ lname ++ ascii ": " ++ reason ++ ascii "\n")
      | none =>
        let s := { r.2 with fopens := s.fopens.tail, opened := lname :: s.opened }
        let s := s.transfer ⟨⟨⟨.retr, ent.name, some 0, none⟩, ent.size, 0⟩, Screen.xferDone⟩
        downloadLoop slots (s.mapScreen fun c => { c with localModified := true })

/-- `act_transfer`. Nothing is implemented for the local pane. -/
def actTransfer (s : Ui) : Ui :=
  match s.focus with
  | .remote => downloadLoop (usedSlots s.list.transferSel) s
  | .localdir => s

/-- The loop of `act_delete`, in the local pane. -/
def deleteLoop : List (Option Int) → Ui → Ui
  | [], s => s
  | slot :: slots, s =>
    let r := s.use slot
    match r.1 with
    | none => r.2
    | some ent =>
      deleteLoop slots <|
        if ent.type = .file then { r.2 with removed := ent.name :: s.removed }.mapScreen fun c =>
          { c with localModified := true }.message .info
            (ascii "removing local file: " ++ ent.name ++ ascii "\n")
        else r.2

/-- `act_delete`. Nothing is implemented for the remote pane. -/
def actDelete (s : Ui) : Ui :=
  match s.focus with
  | .remote => s
  | .localdir =>
    let r := s.list.deleteSel
    let s := deleteLoop (usedSlots r) s
    if r.1 ≠ 0 then s.mapScreen Screen.updateLocaldir else s

/-- `act_view` -/
def actView (s : Ui) : Ui :=
  let r := s.use (some s.list.cur)
  match r.1 with
  | none => r.2
  | some ent =>
    match s.focus with
    | .remote =>
      r.2.transfer ⟨⟨⟨.retr, ent.name, none, some []⟩, ent.size, 0⟩, Screen.viewDone⟩
    | .localdir =>
      let read := s.reads.headD .noMemory
      let s := { r.2 with reads := s.reads.tail }
      match read with
      | .noMemory => s.mapScreen fun c => c.message .err
          (ascii "failed to allocate file buffer (" ++ (if ent.size < 0 then ascii "-" else []) ++
            decimal ent.size.natAbs ++ ascii " bytes)\n")
      | .noFile reason => s.mapScreen fun c => c.message .err
          (ascii "failed to open file: " ++ ent.name ++ ascii ": " ++ reason ++ ascii "\n")
      | .short => s.mapScreen fun c => c.message .err
          (ascii "failed to read file: " ++ ent.name ++ ascii "\n")
      | .contents b => s.mapScreen fun c =>
          { c with viewer := viewMemopen ent.name (some b) c.viewer }

end Ui

/-- The keys of `keypress` and `view_input`. -/
inductive Key
  /-- Escape and F10. -/
  | esc
  | q
  | backquote
  | tab
  | ins
  | up
  | down
  | left
  | right
  | home
  | fin
  | pgup
  | pgdn
  | enter
  | backspace
  | f3
  | f5
  | f8
  /-- Any other key. -/
  | other
  deriving DecidableEq, Repr

/-- The key as `view_input` reads it. -/
def Key.view : Key → ViewKey
  | .esc => .quit
  | .backquote => .redraw
  | .home => .home
  | .fin => .fin
  | .pgup => .pgup
  | .pgdn => .pgdn
  | .up => .up
  | .down => .down
  | .left => .left
  | .right => .right
  | _ => .other

namespace Ui

/-- Change the focused list. -/
def mapFocused (f : TuiList → TuiList) (s : Ui) : Ui := s.mapList s.focus f

/-- The key with which a list is selected from. -/
def selectNext (w : TuiList) : TuiList :=
  if w.cur ≠ -1 then (w.toggleSel w.cur.toNat).2.curNext.2 else w

/-- A page up. -/
def pageUp (w : TuiList) : TuiList :=
  if w.cur - 16 < 0 then w.curStart.2 else (w.setcur (w.cur - 16)).2

/-- A page down. -/
def pageDown (w : TuiList) : TuiList :=
  if w.numItems ≤ w.cur + 16 then w.curEnd.2 else (w.setcur (w.cur + 16)).2

/-- `keypress`, which gives `-1` when the program ends. -/
def keypress (k : Key) (s : Ui) : Int × Ui :=
  if s.world.app.viewer.isOpen then
    (0, s.mapScreen fun c => { c with viewer := viewInput k.view c.viewer })
  else match k with
    | .esc | .q => (-1, s)
    | .tab =>
      (0, { s with focus := match s.focus with | .remote => .localdir | .localdir => .remote })
    | .ins => (0, s.mapFocused selectNext)
    | .up => (0, s.mapFocused fun w => w.curPrev.2)
    | .down => (0, s.mapFocused fun w => w.curNext.2)
    | .left => (0, s.mapFocused fun w => w.curStart.2)
    | .right => (0, s.mapFocused fun w => w.curEnd.2)
    | .pgup => (0, s.mapFocused pageUp)
    | .pgdn => (0, s.mapFocused pageDown)
    | .enter => (0, s.actActivate)
    | .backspace =>
      match s.focus with
      | .remote => (0, s.queue .cdup Op.transfer?_cdup)
      | .localdir => (0, s.mapScreen fun c => c.chdir.2)
    | .f3 => (0, s.actView)
    | .f5 => (0, s.actTransfer)
    | .f8 => (0, s.actDelete)
    | .backquote | .home | .fin | .other => (0, s)

end Ui

/-! ### Runs -/

/-- What the main loop does. `proc_input` may handle any number of keys in one go. -/
inductive UiInput
  /-- A key, with the system for the calls into the client that it leads to. -/
  | key (env : Env) (k : Key)
  /-- A descriptor has become readable. -/
  | handle (env : Env) (fd : Fd)
  /-- The directory of the server's configuration is entered. -/
  | goto (env : Env) (dir : Bytes)
  /-- `view_update` or `updateui`, at the end of a round. -/
  | update

namespace Ui

/-- One step of the main loop. -/
def step (s : Ui) (i : UiInput) : Ui :=
  if s.running then
    match i with
    | .key env k =>
      let r := keypress k { s with world := { s.world with env := env } }
      { r.2 with running := r.1 ≠ -1 }
    | .handle env fd => { s with world := s.world.step env (.handle fd) }
    | .goto env dir => { s with world := s.world.step env (.queue (.chdir dir) rfl) }
    | .update =>
      if s.world.app.viewer.isOpen then
        s.mapScreen fun c => { c with viewer := (viewUpdate c.viewer).2 }
      else s.updateui
  else s

/-- The steps of a run, one after the other. -/
def run (s : Ui) (inputs : List UiInput) : Ui := inputs.foldl step s

@[simp] theorem run_append_singleton (s : Ui) (inputs : List UiInput) (i : UiInput) :
    s.run (inputs ++ [i]) = (s.run inputs).step i := by
  simp [run]

/-- The program before its first round, connected to the server. -/
def start (ctl : Fd) (user pass : Option Bytes) (short : Bool) (screen : Screen)
    (fopens : List (Option Bytes)) (reads : List FileRead) : Ui where
  world := World.connected ctl user pass
    { screen with viewer := Viewer.init, localModified := true, localOld := true }
  uilist
    | .remote => TuiList.new (ascii "Remote") 21
    | .localdir => TuiList.new (ascii "Local") 21
  focus := .remote
  short := short
  running := true
  seen := 0
  used := []
  opened := []
  removed := []
  fopens := fopens
  reads := reads

end Ui

end Visftp
