import Mathlib.Data.List.Induction
import Mathlib.Data.List.TakeWhile
import Visftp.CString

/-!
# List widgets

`tui_list.c`: the entries of a list, the cursor, the part that is shown and the number of selected
entries. The lists of the program have no callback, so `tui_call_callback` does nothing. An index
that is not in the array is not followed into the memory behind it: `tui_list_toggle_sel` leaves
the list alone there.

`act_transfer` and `act_delete` of `main.c` begin alike: they collect the selected entries in an
array on the stack, or the current one. `transferSel` and `deleteSel` are these beginnings.

## Main definitions

* `ListEntry`, `TuiList` — the data
* `TuiList.clear`, `add`, `toggleSel`, `getSel` — entries and selection
* `TuiList.setcur`, `curNext`, `curPrev`, `curStart`, `curEnd` — the cursor
* `ListOp`, `TuiList.run` — runs
-/

namespace Visftp

/-- `struct list_entry` -/
structure ListEntry where
  text : Bytes
  sel : Bool
  deriving DecidableEq, Repr

/-- `struct tui_list` -/
structure TuiList where
  title : Bytes
  height : Int
  entries : List ListEntry
  numSel : Int
  cur : Int
  viewOffs : Int
  dirty : Bool
  deriving DecidableEq, Repr

namespace TuiList

/-- `tui_list` -/
def new (title : Bytes) (height : Int) : TuiList :=
  { title, height, entries := [], numSel := 0, cur := -1, viewOffs := 0, dirty := true }

/-- `tui_num_list_items` -/
def numItems (w : TuiList) : Int := w.entries.length

/-- `tui_clear_list` -/
def clear (w : TuiList) : TuiList := { w with entries := [], dirty := true }

/-- `tui_add_list_item` -/
def add (text : Bytes) (w : TuiList) : TuiList :=
  { w with entries := w.entries ++ [⟨text, false⟩], dirty := true }

/-! ### The cursor -/

/-- `VISLINES` -/
def visLines (w : TuiList) : Int := w.height - 2

/-- `tui_list_setcur` -/
def setcur (idx : Int) (w : TuiList) : Int × TuiList :=
  if idx = w.cur then (0, w)
  else if idx < 0 then (0, { w with cur := -1 })
  else if w.numItems ≤ idx then (-1, w)
  else
    let w := { w with cur := idx }
    let w := if idx < w.viewOffs ∨ w.viewOffs + w.visLines ≤ idx then
        let offs := idx - w.visLines.tdiv 2
        let offs := if w.numItems ≤ offs + w.visLines then w.numItems - w.visLines else offs
        { w with viewOffs := if offs < 0 then 0 else offs }
      else w
    (0, { w with dirty := true })

/-- `tui_list_cur_next` -/
def curNext (w : TuiList) : Int × TuiList :=
  if w.numItems ≤ w.cur + 1 then (-1, w)
  else
    let w := { w with cur := w.cur + 1 }
    let w := if w.visLines ≤ w.cur - w.viewOffs then { w with viewOffs := w.cur - w.visLines + 1 }
      else w
    (0, { w with dirty := true })

/-- `tui_list_cur_prev` -/
def curPrev (w : TuiList) : Int × TuiList :=
  if w.cur ≤ 0 then (-1, w)
  else
    let w := { w with cur := w.cur - 1 }
    let w := if w.cur < w.viewOffs then { w with viewOffs := w.cur } else w
    (0, { w with dirty := true })

/-- `tui_list_cur_start` -/
def curStart (w : TuiList) : Int × TuiList :=
  (0, { w with cur := 0, viewOffs := 0, dirty := true })

/-- `tui_list_cur_end` -/
def curEnd (w : TuiList) : Int × TuiList :=
  let offs := w.numItems - w.visLines
  (0, { w with cur := w.numItems - 1, viewOffs := if offs < 0 then 0 else offs, dirty := true })

/-! ### The selection -/

/-- `tui_list_is_sel` -/
def isSel (idx : ℕ) (w : TuiList) : Bool := (w.entries[idx]?.map ListEntry.sel).getD false

/-- `tui_list_toggle_sel` -/
def toggleSel (idx : ℕ) (w : TuiList) : Bool × TuiList :=
  match w.entries[idx]? with
  | none => (false, w)
  | some e =>
    let sel := !e.sel
    let numSel := if sel then w.numSel + 1
      else if 0 < w.numSel then w.numSel - 1
      else w.numSel
    (sel, { w with entries := w.entries.set idx { e with sel := sel }, numSel, dirty := true })

/-- The loop of `tui_list_get_sel` over the entries that are left, from index `i` on: what it stores
in `selv`, from the first slot on. -/
def fillSel : List ListEntry → ℕ → Int → List ℕ
  | [], _, _ => []
  | e :: es, i, maxsel =>
    if maxsel ≤ 0 then []
    else if e.sel then i :: fillSel es (i + 1) (maxsel - 1)
    else fillSel es (i + 1) maxsel

/-- `tui_list_get_sel`: its result, and the slots of `selv` that it fills. -/
def getSel (maxsel : Int) (w : TuiList) : Int × List ℕ := (w.numSel, fillSel w.entries 0 maxsel)

/-- The beginning of `act_transfer`: `numsel`, and the slots of `selv` that are filled. -/
def transferSel (w : TuiList) : Int × List Int :=
  let r := w.getSel w.numItems
  let selv := r.2.map fun i : ℕ => (i : Int)
  if r.1 = 0 then (1, w.cur :: selv.tail) else (r.1, selv)

/-- The beginning of `act_delete`. -/
def deleteSel (w : TuiList) : Int × List Int :=
  let r := w.getSel w.numItems
  let selv := r.2.map fun i : ℕ => (i : Int)
  if r.1 = 0 then (if w.cur ≠ -1 then 1 else r.1, w.cur :: selv.tail) else (r.1, selv)

end TuiList

/-! ### Runs -/

/-- The operations of a list. -/
inductive ListOp
  | clear
  | add (text : Bytes)
  | toggle (idx : ℕ)
  | setcur (idx : Int)
  | curNext
  | curPrev
  | curStart
  | curEnd
  deriving DecidableEq, Repr

/-- One operation. -/
def TuiList.step (w : TuiList) : ListOp → TuiList
  | .clear => w.clear
  | .add text => w.add text
  | .toggle idx => (w.toggleSel idx).2
  | .setcur idx => (w.setcur idx).2
  | .curNext => w.curNext.2
  | .curPrev => w.curPrev.2
  | .curStart => w.curStart.2
  | .curEnd => w.curEnd.2

/-- The operations of a run, one after the other. -/
def TuiList.run (w : TuiList) (ops : List ListOp) : TuiList := ops.foldl TuiList.step w

@[simp] theorem TuiList.run_append_singleton (w : TuiList) (ops : List ListOp) (op : ListOp) :
    w.run (ops ++ [op]) = (w.run ops).step op := by
  simp [run]

end Visftp
