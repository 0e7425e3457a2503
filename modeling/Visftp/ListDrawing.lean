import Visftp.Tgfx
import Visftp.TuiCursor

/-!
# How a list is drawn

`draw_list`, and the screen after it. A list covers its rectangle: every cell of it gets a word that
depends on the list, its focus and the background character, and on nothing else (`listWord`); no
other cell changes. So a list that is drawn again over anything shows itself.

An index that is not in the array is not followed into the memory behind it: the row is left out.

## Main definitions

* `drawList` — `draw_list`
* `listWord` — what a list shows in a cell

## Main results

* `drawList_framebuf` — the screen after it, cell by cell
-/

namespace Visftp

open CString

/-- `wl->entries[idx]` -/
def TuiList.entry (w : TuiList) (idx : Int) : Option ListEntry :=
  if 0 ≤ idx then w.entries[idx.toNat]? else none

/-- The body of the loop of `draw_list`, with `x` and `maxlen` as they are then. -/
def drawRow (w : TuiList) (focus : Bool) (x y maxlen : Int) (t : Tg) (i : ℕ) : Tg :=
  let idx := i + w.viewOffs
  match w.entry idx with
  | none => t
  | some e =>
    let text := (cstr e.text).take maxlen.toNat
    let y := y + i + 1
    if focus ∧ idx = w.cur then
      let t := tgFgcolor (if e.sel then Color.yellow else .blue).code (tgBgcolor Color.cyan.code t)
      let t := tgText x y text (tgRect none x y maxlen 1 false t)
      tgFgcolor (if e.sel then Color.yellow else .cyan).code (tgBgcolor Color.blue.code t)
    else tgText x y text (tgFgcolor (if e.sel then Color.yellow else .cyan).code t)

/-- How many entries `draw_list` draws. -/
def TuiList.numDrawn (w : TuiList) : Int :=
  if w.height - 2 < w.numItems then w.height - 2 else w.numItems

/-- `draw_list` of a list whose corner `tui_wtoscr` puts at `x`, `y`. -/
def drawList (w : TuiList) (x y width : Int) (focus : Bool) (t : Tg) : Tg :=
  let maxlen := width - 2
  let t := tgFgcolor Color.cyan.code (tgBgcolor Color.blue.code t)
  let t := tgRect (some w.title) x y width w.height true t
  (List.range w.numDrawn.toNat).foldl (drawRow w focus (x + 1) y maxlen) t

/-! ### What a list shows -/

/-- What an entry shows in column `u` of its row, `none` where the row shows the background. -/
def entryWord (bgchar : ℕ) (maxlen : Int) (current : Bool) (e : ListEntry) (u : Int) :
    Option UInt16 :=
  let c := ((cstr e.text).take maxlen.toNat)[u.toNat]?
  if current then
    some (colorAttr (if e.sel then .yellow else .blue) .cyan |||
      (c.map UInt8.toUInt16).getD (UInt16.ofNat bgchar))
  else c.map fun c => colorAttr (if e.sel then .yellow else .cyan) .blue ||| c.toUInt16

/-- **What a list shows**, `u` columns and `v` rows from its corner. -/
def listWord (bgchar : ℕ) (w : TuiList) (width : Int) (focus : Bool) (u v : Int) : UInt16 :=
  let idx := v - 1 + w.viewOffs
  let text := if (1 ≤ u ∧ u < width - 1) ∧ 1 ≤ v ∧ v ≤ w.numDrawn then
      (w.entry idx).bind fun e => entryWord bgchar (width - 2) (focus ∧ idx = w.cur) e (u - 1)
    else none
  text.getD (rectWord (colorAttr .cyan .blue) bgchar (some w.title) width w.height true u v)

/-! ### The screen after drawing -/

variable {w : TuiList} {focus : Bool} {x y width maxlen i j : Int}

/-- A row begins and ends on blue. -/
theorem bgcol_drawRow {t : Tg} (h : t.bgcol = Color.blue.code) (r : ℕ) :
    (drawRow w focus x y maxlen t r).bgcol = Color.blue.code := by
  rw [drawRow]
  dsimp only
  split
  · exact h
  split
  · rw [bgcol_tgFgcolor, bgcol_tgBgcolor]
  · rw [bgcol_tgText, bgcol_tgFgcolor, h]

theorem setup_drawRow (t : Tg) (r : ℕ) : (drawRow w focus x y maxlen t r).setup = t.setup := by
  rw [drawRow]
  dsimp only
  split
  · rfl
  split <;> rfl

theorem cstr_take_cstr (s : Bytes) (n : ℕ) : cstr ((cstr s).take n) = (cstr s).take n :=
  cstr_eq_self fun h => nul_notMem_cstr s (List.mem_of_mem_take h)

theorem entryWord_true (bgchar : ℕ) (maxlen : Int) (e : ListEntry) (u : Int) :
    entryWord bgchar maxlen true e u = some (colorAttr (if e.sel then .yellow else .blue) .cyan |||
      ((((cstr e.text).take maxlen.toNat)[u.toNat]?).map UInt8.toUInt16).getD
        (UInt16.ofNat bgchar)) := rfl

theorem entryWord_false (bgchar : ℕ) (maxlen : Int) (e : ListEntry) (u : Int) :
    entryWord bgchar maxlen false e u = (((cstr e.text).take maxlen.toNat)[u.toNat]?).map fun c =>
      colorAttr (if e.sel then .yellow else .cyan) .blue ||| c.toUInt16 := rfl

/-- A rectangle without border and label is of one word. -/
theorem rectWord_plain (attr : UInt16) (bgchar : ℕ) (xsz ysz u v : Int) :
    rectWord attr bgchar none xsz ysz false u v = attr ||| UInt16.ofNat bgchar := by
  simp [rectWord, labelChar]

/-- The screen after one row: the cells of its text area. -/
theorem drawRow_framebuf {t : Tg} (hbg : t.bgcol = Color.blue.code) (r : ℕ)
    (hx : 0 ≤ x ∧ x + maxlen ≤ 80) (hm : 0 ≤ maxlen) (hi : 0 ≤ i ∧ i < 80) :
    (drawRow w focus x y maxlen t r).framebuf (cellAt i j) =
      (if (x ≤ i ∧ i < x + maxlen) ∧ j = y + r + 1 then (w.entry (r + w.viewOffs)).bind fun e =>
          entryWord t.bgchar maxlen (focus ∧ r + w.viewOffs = w.cur) e (i - x)
        else none).getD (t.framebuf (cellAt i j)) := by
  rw [drawRow]
  dsimp only
  split
  · next hnone =>
    rw [hnone]
    split <;> rfl
  next e he =>
  rw [he, Option.bind_some]
  have hlen : (((cstr e.text).take maxlen.toNat).length : Int) ≤ maxlen := by
    rw [List.length_take]
    omega
  have hlen' : x + (cstr ((cstr e.text).take maxlen.toNat)).length ≤ 80 := by
    rw [cstr_take_cstr]
    omega
  have hout : ¬((x ≤ i ∧ i < x + maxlen) ∧ j = y + r + 1) →
      (if j = y + r + 1 ∧ x ≤ i then ((cstr e.text).take maxlen.toNat)[(i - x).toNat]?
        else none) = none := by
    intro h
    split
    · exact List.getElem?_eq_none (by omega)
    · rfl
  split
  · next hcur =>
    rw [framebuf_tgFgcolor, framebuf_tgBgcolor, tgText_cell _ hx.1 hlen' hi, cstr_take_cstr,
      tgRect_framebuf _ none false ⟨hx.1, hx.2⟩ Int.one_pos hi, attr_tgRect, rectWord_plain,
      attr_tgFgcolor _ _ .cyan (bgcol_tgBgcolor _ _), decide_eq_true hcur, entryWord_true]
    by_cases hin : (x ≤ i ∧ i < x + maxlen) ∧ j = y + r + 1
    · rw [if_pos hin, if_pos (show j = y + r + 1 ∧ x ≤ i from ⟨hin.2, hin.1.1⟩),
        if_pos (show (x ≤ i ∧ i < x + maxlen) ∧ y + r + 1 ≤ j ∧ j < y + r + 1 + 1 by omega)]
      cases ((cstr e.text).take maxlen.toNat)[(i - x).toNat]? <;> rfl
    · rw [hout hin, if_neg hin,
        if_neg (show ¬((x ≤ i ∧ i < x + maxlen) ∧ y + r + 1 ≤ j ∧ j < y + r + 1 + 1) by omega)]
      rfl
  · next hcur =>
    rw [tgText_cell _ hx.1 hlen' hi, cstr_take_cstr, attr_tgFgcolor _ _ .blue hbg,
      framebuf_tgFgcolor, decide_eq_false hcur, entryWord_false]
    by_cases hin : (x ≤ i ∧ i < x + maxlen) ∧ j = y + r + 1
    · rw [if_pos hin, if_pos (show j = y + r + 1 ∧ x ≤ i from ⟨hin.2, hin.1.1⟩)]
    · rw [hout hin, if_neg hin]
      rfl

/-- The rows are drawn on blue, and the other variables stay. -/
theorem foldl_drawRow_state {t : Tg} (hbg : t.bgcol = Color.blue.code) (n : ℕ) :
    ((List.range n).foldl (drawRow w focus x y maxlen) t).bgcol = Color.blue.code ∧
      ((List.range n).foldl (drawRow w focus x y maxlen) t).setup = t.setup := by
  induction n with
  | zero => exact ⟨hbg, rfl⟩
  | succ n ih =>
    rw [List.range_succ, List.foldl_append]
    exact ⟨bgcol_drawRow ih.1 n, (setup_drawRow _ n).trans ih.2⟩

/-- The screen after the loop. -/
theorem foldl_drawRow_framebuf {t : Tg} (hbg : t.bgcol = Color.blue.code) (n : ℕ)
    (hx : 0 ≤ x ∧ x + maxlen ≤ 80) (hm : 0 ≤ maxlen) (hi : 0 ≤ i ∧ i < 80) :
    ((List.range n).foldl (drawRow w focus x y maxlen) t).framebuf (cellAt i j) =
      (if (x ≤ i ∧ i < x + maxlen) ∧ y + 1 ≤ j ∧ j ≤ y + n then
          (w.entry (j - y - 1 + w.viewOffs)).bind fun e =>
            entryWord t.bgchar maxlen (focus ∧ j - y - 1 + w.viewOffs = w.cur) e (i - x)
        else none).getD (t.framebuf (cellAt i j)) := by
  induction n with
  | zero =>
    rw [if_neg (by omega)]
    rfl
  | succ n ih =>
    rw [List.range_succ, List.foldl_append, List.foldl_cons, List.foldl_nil,
      drawRow_framebuf (foldl_drawRow_state hbg n).1 n hx hm hi,
      Tg.bgchar_eq (foldl_drawRow_state hbg n).2, ih]
    by_cases hrow : j = y + n + 1
    · rw [if_neg (c := (x ≤ i ∧ i < x + maxlen) ∧ y + 1 ≤ j ∧ j ≤ y + n) (by omega),
        show j - y - 1 = n by omega]
      by_cases hin : x ≤ i ∧ i < x + maxlen
      · rw [if_pos ⟨hin, hrow⟩, if_pos ⟨hin, by omega, by push_cast; omega⟩]
        rfl
      · rw [if_neg (by tauto), if_neg (by tauto)]
        rfl
    · rw [if_neg (by tauto)]
      by_cases hin : (x ≤ i ∧ i < x + maxlen) ∧ y + 1 ≤ j ∧ j ≤ y + n
      · rw [if_pos hin, if_pos (by push_cast; omega)]
        rfl
      · rw [if_neg hin, if_neg (by push_cast; omega)]
        rfl

theorem numDrawn_bounds (hh : 2 ≤ w.height) : 0 ≤ w.numDrawn ∧ w.numDrawn ≤ w.height - 2 := by
  have hitems : 0 ≤ w.numItems := Int.natCast_nonneg _
  rw [TuiList.numDrawn]
  split <;> omega

theorem setup_drawList (w : TuiList) (x y width : Int) (focus : Bool) (t : Tg) :
    (drawList w x y width focus t).setup = t.setup := by
  refine (foldl_drawRow_state ?_ _).2.trans (by rfl)
  rw [bgcol_tgRect, bgcol_tgFgcolor, bgcol_tgBgcolor]

/-- **The screen after `draw_list`**: the rectangle of the list shows the list, and the rest of the
memory is as it was. -/
theorem drawList_framebuf (t : Tg) (focus : Bool) (hx : 0 ≤ x ∧ x + width ≤ 80) (hwidth : 2 ≤ width)
    (hh : 2 ≤ w.height) (hi : 0 ≤ i ∧ i < 80) :
    (drawList w x y width focus t).framebuf (cellAt i j) =
      if (x ≤ i ∧ i < x + width) ∧ y ≤ j ∧ j < y + w.height then
        listWord t.bgchar w width focus (i - x) (j - y)
      else t.framebuf (cellAt i j) := by
  obtain ⟨hnum, hnum'⟩ := numDrawn_bounds hh
  have hbg : (tgRect (some w.title) x y width w.height true
      (tgFgcolor Color.cyan.code (tgBgcolor Color.blue.code t))).bgcol = Color.blue.code := by
    rw [bgcol_tgRect, bgcol_tgFgcolor, bgcol_tgBgcolor]
  rw [drawList, foldl_drawRow_framebuf hbg _ ⟨by omega, by omega⟩ (by omega) hi,
    tgRect_framebuf _ _ true hx (by omega) hi, attr_tgFgcolor _ _ .blue (bgcol_tgBgcolor _ _),
    bgchar_tgRect, bgchar_tgFgcolor, bgchar_tgBgcolor, framebuf_tgFgcolor, framebuf_tgBgcolor,
    Int.toNat_of_nonneg hnum]
  by_cases hin : (x ≤ i ∧ i < x + width) ∧ y ≤ j ∧ j < y + w.height
  · rw [if_pos hin, if_pos hin, listWord]
    by_cases htext : (x + 1 ≤ i ∧ i < x + 1 + (width - 2)) ∧ y + 1 ≤ j ∧ j ≤ y + w.numDrawn
    · rw [if_pos htext, if_pos (by omega), show i - (x + 1) = i - x - 1 by omega]
    · rw [if_neg htext, if_neg (by omega)]
  · rw [if_neg hin, if_neg hin, if_neg (by omega)]
    rfl

end Visftp
