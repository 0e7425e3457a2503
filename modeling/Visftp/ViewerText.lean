import Visftp.ViewerScroll

/-!
# The text of the viewer

What `view_update` paints in a row, against the window of 78 columns that begins `hscroll` columns
behind the start of the tab-expanded line. The loop of `view_update` stops at the column 78 of the
line, not of the window; the blanks of a tab are not shifted to the window, and are not cut at its
right edge.

## Main definitions

* `expandTabs`, `textColumn` — the expanded line, and what a column of the window is to show
* `Draw.cell`, `painted` — what calls into `tgfx.c` leave in a cell of the screen

## Main results

* `painted_drawLine`, `painted_drawLine_outside` — what the loop leaves in its row
* `painted_viewUpdate_iff` — when the row shows the window
-/

namespace Visftp

open CString

/-! ### What is to be shown -/

/-- A line from column `x` on, with the columns of the tabs as `none`. Tab stops are 4 apart. -/
def expandTabs : ℕ → Bytes → List (Option Byte)
  | _, [] => []
  | x, c :: s =>
    if c = 9 then
      let ts := x / 4 * 4 + 4
      List.replicate (ts - x) none ++ expandTabs ts s
    else some c :: expandTabs (x + 1) s

/-- Column `c` of the text area, scrolled by `h` columns: the character that stands there, or a
blank. -/
def textColumn (h : ℕ) (line : Bytes) (c : ℕ) : Byte :=
  (((expandTabs 0 line)[h + c]?).join).getD 32

/-! ### What is painted -/

/-- What a call leaves in column `i` of row `j`, as far as it is text: the border of a frame and its
title are not. -/
def Draw.cell (i j : Int) : Draw → Option Byte
  | .rect x y width height =>
    if (x ≤ i ∧ i < x + width) ∧ y ≤ j ∧ j < y + height then some 32 else none
  | .frame _ x y width height =>
    if (x < i ∧ i < x + width - 1) ∧ y < j ∧ j < y + height - 1 then some 32 else none
  | .putchar x y c => if i = x ∧ j = y then some c else none
  | .text x y s => if x ≤ i ∧ j = y then s[(i - x).toNat]? else none

/-- What a list of calls leaves in a cell: the last one counts. -/
def painted (draws : List Draw) (i j : Int) : Option Byte :=
  match draws with
  | [] => none
  | d :: ds => (painted ds i j).or (d.cell i j)

variable {h c : ℕ} {i j row : Int} {s : Bytes}

@[simp] theorem painted_nil : painted [] i j = none := rfl

@[simp] theorem painted_cons (d : Draw) (ds : List Draw) :
    painted (d :: ds) i j = (painted ds i j).or (d.cell i j) := rfl

theorem painted_append (ds ds' : List Draw) :
    painted (ds ++ ds') i j = (painted ds' i j).or (painted ds i j) := by
  induction ds with
  | nil => simp
  | cons d ds ih => rw [List.cons_append, painted_cons, ih, painted_cons, Option.or_assoc]

theorem painted_eq_none {ds : List Draw} (hds : ∀ d ∈ ds, d.cell i j = none) :
    painted ds i j = none := by
  induction ds with
  | nil => rfl
  | cons d ds ih =>
    obtain ⟨hd, hds⟩ := List.forall_mem_cons.mp hds
    rw [painted_cons, ih hds, hd]
    rfl

/-- Of several parts of a drawing, only one paints the cell. -/
theorem painted_flatMap_range {n k : ℕ} (hk : k < n) (draws : ℕ → List Draw)
    (hothers : ∀ l, l ≠ k → painted (draws l) i j = none) :
    painted ((List.range n).flatMap draws) i j = painted (draws k) i j := by
  have hnone : ∀ m ≤ k, painted ((List.range m).flatMap draws) i j = none := by
    intro m
    induction m with
    | zero => exact fun _ => rfl
    | succ m ih =>
      intro hm
      rw [List.range_succ, List.flatMap_append, painted_append, ih (by omega),
        List.flatMap_singleton, hothers m (by omega)]
      rfl
  induction n with
  | zero => exact absurd hk (Nat.not_lt_zero k)
  | succ n ih =>
    rw [List.range_succ, List.flatMap_append, painted_append, List.flatMap_singleton]
    rcases Nat.lt_succ_iff_lt_or_eq.mp hk with hlt | rfl
    · rw [hothers n (by omega), ih hlt]
      rfl
    · rw [hnone k le_rfl, Option.or_none]

/-! ### The loop over a line -/

/-- Column `k` of a part of a line that begins at column `x`. -/
def columnAt (x : ℕ) (e : List (Option Byte)) (k : ℕ) : Option (Option Byte) :=
  if x ≤ k then e[k - x]? else none

/-- A column of a part that begins with a character. -/
theorem columnAt_cons (x : ℕ) (a : Option Byte) (e : List (Option Byte)) (k : ℕ) :
    columnAt x (a :: e) k = if k = x then some a else columnAt (x + 1) e k := by
  rw [columnAt, columnAt]
  rcases Nat.lt_trichotomy k x with hlt | rfl | hgt
  · rw [if_neg (by omega), if_neg (by omega), if_neg (by omega)]
  · rw [if_pos le_rfl, if_pos rfl, Nat.sub_self]
    rfl
  · rw [if_pos (by omega), if_neg (by omega), if_pos (by omega),
      show k - x = k - (x + 1) + 1 by omega, List.getElem?_cons_succ]

/-- A column of a part that begins with a tab. -/
theorem columnAt_replicate {x ts : ℕ} (hts : x ≤ ts) (e : List (Option Byte)) (k : ℕ) :
    columnAt x (List.replicate (ts - x) none ++ e) k =
      if x ≤ k ∧ k < ts then some none else columnAt ts e k := by
  rw [columnAt, columnAt]
  by_cases hx : x ≤ k
  · rw [if_pos hx]
    by_cases hk : k < ts
    · rw [if_pos ⟨hx, hk⟩, List.getElem?_append_left (by rw [List.length_replicate]; omega),
        List.getElem?_replicate_of_lt (by omega)]
    · rw [if_neg (by omega), if_pos (by omega),
        List.getElem?_append_right (by rw [List.length_replicate]; omega), List.length_replicate,
        show k - x - (ts - x) = k - ts by omega]
  · rw [if_neg hx, if_neg (by omega), if_neg (by omega)]

theorem columnAt_of_lt {x k : ℕ} (hk : k < x) (e : List (Option Byte)) :
    columnAt x e k = none := if_neg (by omega)

/-- The tab stops of the loop are the multiples of 4. -/
theorem tabStop_eq {x : ℕ} (hx : x < numViscol) : (x + 4) &&& 65532 = x / 4 * 4 + 4 := by
  have hall : ∀ x < 78, (x + 4) &&& 65532 = x / 4 * 4 + 4 := by decide
  exact hall x hx

/-- The blanks behind the end of a line. -/
def fillCell (h x : ℕ) (s : Bytes) (c : ℕ) : Option Byte :=
  let width := x + (expandTabs x s).length
  if width < numViscol ∧ width ≤ h + c then some 32 else none

/-- The character of a line in the column. Columns of the line from 78 on are not reached. -/
def charCell (h x : ℕ) (s : Bytes) (c : ℕ) : Option Byte :=
  if h + c < numViscol then (columnAt x (expandTabs x s) (h + c)).join else none

/-- The blanks of a tab, where they would be without scrolling. -/
def tabCell (x : ℕ) (s : Bytes) (c : ℕ) : Option Byte :=
  if columnAt x (expandTabs x s) c = some none then some 32 else none

theorem expandTabs_tab (x : ℕ) (s : Bytes) : expandTabs x (9 :: s) =
    List.replicate (x / 4 * 4 + 4 - x) none ++ expandTabs (x / 4 * 4 + 4) s := by
  rw [expandTabs, if_pos rfl]

theorem expandTabs_char {b : Byte} (hb : b ≠ 9) (x : ℕ) (s : Bytes) :
    expandTabs x (b :: s) = some b :: expandTabs (x + 1) s := by rw [expandTabs, if_neg hb]

theorem length_expandTabs_tab (x : ℕ) (s : Bytes) : x + (expandTabs x (9 :: s)).length =
    x / 4 * 4 + 4 + (expandTabs (x / 4 * 4 + 4) s).length := by
  rw [expandTabs_tab, List.length_append, List.length_replicate]
  omega

theorem fillCell_tab (x : ℕ) : fillCell h x (9 :: s) c = fillCell h (x / 4 * 4 + 4) s c := by
  rw [fillCell, fillCell, length_expandTabs_tab]

theorem charCell_tab (x : ℕ) : charCell h x (9 :: s) c = charCell h (x / 4 * 4 + 4) s c := by
  rw [charCell, charCell, expandTabs_tab, columnAt_replicate (by omega)]
  split
  · split
    · rw [columnAt_of_lt (by omega)]
      rfl
    · rfl
  · rfl

theorem tabCell_tab (x : ℕ) : tabCell x (9 :: s) c =
    (tabCell (x / 4 * 4 + 4) s c).or
      (if x ≤ c ∧ c < x / 4 * 4 + 4 then some 32 else none) := by
  rw [tabCell, tabCell, expandTabs_tab, columnAt_replicate (by omega)]
  split
  · rw [columnAt_of_lt (by omega)]
    rfl
  · rw [Option.or_none]

theorem charCell_of_lt {x : ℕ} (hx : h + c < x ∨ numViscol ≤ x) : charCell h x s c = none := by
  rw [charCell]
  split
  · rw [columnAt_of_lt (by omega)]
    rfl
  · rfl

theorem tabCell_of_lt {x : ℕ} (hx : c < x) : tabCell x s c = none := by
  rw [tabCell, columnAt_of_lt hx, if_neg (by simp)]

theorem fillCell_char {b : Byte} (hb : b ≠ 9) (x : ℕ) :
    fillCell h x (b :: s) c = fillCell h (x + 1) s c := by
  have hlen : x + (expandTabs x (b :: s)).length = x + 1 + (expandTabs (x + 1) s).length := by
    rw [expandTabs_char hb, List.length_cons]
    omega
  rw [fillCell, fillCell, hlen]

theorem charCell_char {b : Byte} (hb : b ≠ 9) {x : ℕ} (hx : x < numViscol) :
    charCell h x (b :: s) c = if h + c = x then some b else charCell h (x + 1) s c := by
  rw [charCell, charCell, expandTabs_char hb, columnAt_cons]
  by_cases hcol : h + c = x
  · rw [if_pos (by omega), if_pos hcol, if_pos hcol]
    rfl
  · rw [if_neg hcol, if_neg hcol]

theorem tabCell_char {b : Byte} (hb : b ≠ 9) (x : ℕ) :
    tabCell x (b :: s) c = tabCell (x + 1) s c := by
  rw [tabCell, tabCell, expandTabs_char hb, columnAt_cons]
  split
  · next hcx => rw [if_neg (by simp), columnAt_of_lt (by omega), if_neg (by simp)]
  · rfl

/-- **What the loop leaves in the text area.** The fill at the end counts more than the characters,
and these more than the blanks of the tabs. -/
theorem painted_drawLine (hc : c < numViscol) (x : ℕ) (s : Bytes) :
    painted (drawLine h row x s) (c + 1) row =
      (fillCell h x s c).or ((charCell h x s c).or (tabCell x s c)) := by
  have h78 : numViscol = 78 := rfl
  induction s generalizing x with
  | nil =>
    rw [fillCell, charCell, tabCell, expandTabs, drawLine]
    simp only [columnAt, List.getElem?_nil, ite_self, Option.join_none, List.length_nil]
    split
    · simp only [painted_cons, painted_nil, Draw.cell]
      split <;> split <;> first | rfl | omega
    · rw [if_neg (by omega)]
      rfl
  | cons b s ih =>
    rw [drawLine]
    split
    · next hx =>
      split
      · next hb =>
        -- a tab: its blanks are the columns in front of the rest
        subst hb
        have hcell : (Draw.rect (x + 1) row (((x / 4 * 4 + 4 : ℕ) : Int) - x) 1).cell (c + 1) row =
            if x ≤ c ∧ c < x / 4 * 4 + 4 then some 32 else none :=
          if_congr (by omega) rfl rfl
        rw [tabStop_eq hx, painted_cons, ih, hcell, fillCell_tab, charCell_tab, tabCell_tab,
          Option.or_assoc, Option.or_assoc]
      · next hb =>
        rw [fillCell_char hb, charCell_char hb hx, tabCell_char hb]
        have hcell : (Draw.putchar (x + 1 - h) row b).cell (c + 1) row =
            if h + c = x then some b else none := if_congr (by omega) rfl rfl
        by_cases hcol : h + c = x
        · rw [if_pos (by omega), painted_cons, ih, hcell, if_pos hcol, if_pos hcol,
            charCell_of_lt (by omega), tabCell_of_lt (by omega), Option.or_none, Option.or_none,
            Option.or_none]
        · rw [if_neg hcol]
          split
          · rw [painted_cons, ih, hcell, if_neg hcol, Option.or_none]
          · exact ih (x + 1)
    · next hx =>
      have hlen : x ≤ x + (expandTabs x (b :: s)).length := Nat.le_add_right _ _
      rw [fillCell, if_neg (by omega), charCell_of_lt (by omega), tabCell_of_lt (by omega)]
      rfl

/-- **What the loop leaves beside the text area**: blanks of a tab, if it covers the last column. -/
theorem painted_drawLine_outside (hi : i < 1 ∨ numViscol < i) (x : ℕ) (s : Bytes) :
    painted (drawLine h row x s) i row =
      if numViscol < i ∧ i ≤ 80 then tabCell x s 77 else none := by
  have h78 : numViscol = 78 := rfl
  induction s generalizing x with
  | nil =>
    rw [tabCell, expandTabs, drawLine]
    simp only [columnAt, List.getElem?_nil, ite_self, reduceCtorEq, if_false]
    split
    · simp only [painted_cons, painted_nil, Draw.cell, Option.none_or]
      exact if_neg (by omega)
    · rfl
  | cons b s ih =>
    rw [drawLine]
    split
    · next hx =>
      split
      · next hb =>
        subst hb
        have hcell : (Draw.rect (x + 1) row (((x / 4 * 4 + 4 : ℕ) : Int) - x) 1).cell i row =
            if numViscol < i ∧ i ≤ 80 then if x ≤ 77 ∧ 77 < x / 4 * 4 + 4 then some 32 else none
            else none := by
          rw [Draw.cell]
          split_ifs <;> first | rfl | omega
        rw [tabStop_eq hx, painted_cons, ih, hcell, tabCell_tab]
        split <;> rfl
      · next hb =>
        rw [tabCell_char hb, ← ih]
        split
        · have hcell : (Draw.putchar (x + 1 - h) row b).cell i row = none := if_neg (by omega)
          rw [painted_cons, hcell, Option.or_none]
        · rfl
    · rw [tabCell_of_lt (by omega), ite_self]
      rfl

/-- A row is drawn by its own line. -/
theorem painted_drawLine_row {hscroll : Int} (hj : j ≠ row) (x : ℕ) (s : Bytes) :
    painted (drawLine hscroll row x s) i j = none := by
  induction s generalizing x with
  | nil =>
    rw [drawLine]
    split
    · exact if_neg (by omega)
    · rfl
  | cons b s ih =>
    have hrect : ∀ y width, (Draw.rect y row width 1).cell i j = none := fun y width =>
      if_neg (by omega)
    have hchar : ∀ y, (Draw.putchar y row b).cell i j = none := fun y => if_neg (by omega)
    rw [drawLine]
    split
    · split
      · rw [painted_cons, ih, hrect]
        rfl
      · split
        · rw [painted_cons, ih, hchar]
          rfl
        · exact ih (x + 1)
    · rfl

/-! ### A row of the screen -/

/-- A row within the frame, after `view_update`: its line, and the blanks of the frame behind. -/
theorem painted_viewUpdate (v : Viewer) (hdirty : v.dirtyText = true) {k : ℕ}
    (hk : k < min v.lines.length (numVislines - 1)) (i : Int) :
    painted (viewUpdate v).1 i (k + 1) =
      (painted (drawLine v.hscroll (k + 1) 0 (v.line (v.vscroll + k))) i (k + 1)).or
        (if v.dirtyFrame = true ∧ 0 < i ∧ i ≤ numViscol then some 32 else none) := by
  have hk21 : k < 21 := lt_of_lt_of_le hk (min_le_right _ _)
  have h78 : numViscol = 78 := rfl
  have hrows : (viewReads v).zipIdx = (List.range (min v.lines.length (numVislines - 1))).map
      fun l : ℕ => (v.vscroll + l, l) := by
    refine List.ext_getElem (by simp [viewReads, hdirty]) fun l _ _ => ?_
    simp [viewReads, hdirty]
  have htext : painted ((viewReads v).zipIdx.flatMap fun l =>
      drawLine v.hscroll (l.2 + 1) 0 (v.line l.1)) i (k + 1) =
        painted (drawLine v.hscroll (k + 1) 0 (v.line (v.vscroll + k))) i (k + 1) := by
    rw [hrows, List.flatMap_map]
    exact painted_flatMap_range hk _ fun l hl => painted_drawLine_row (by omega) 0 _
  have hbuttons : ∀ b : Bytes × ℕ, ∀ d ∈ [Draw.text (8 * b.2) 23 (buttonNumber (b.2 + 1)),
      .text (8 * b.2 + 2) 23 b.1], d.cell i (k + 1) = none := by
    intro b d hd
    simp only [List.mem_cons, List.not_mem_nil, or_false] at hd
    rcases hd with rfl | rfl <;> exact if_neg (by omega)
  rw [viewUpdate]
  simp only [painted_append, htext]
  have hlast : painted (if v.dirtyButtons then viewButtons.zipIdx.flatMap fun b =>
      [Draw.text (8 * b.2) 23 (buttonNumber (b.2 + 1)), .text (8 * b.2 + 2) 23 b.1]
    else []) i (k + 1) = none := by
    refine painted_eq_none fun d hd => ?_
    split at hd
    · obtain ⟨b, -, hd⟩ := List.mem_flatMap.mp hd
      exact hbuttons b d hd
    · simp at hd
  have hframe : painted (if v.dirtyFrame then [Draw.frame v.title 0 0 80 23] else []) i (k + 1) =
      if v.dirtyFrame = true ∧ 0 < i ∧ i ≤ numViscol then some 32 else none := by
    split
    · next hf => exact if_congr (by simp only [hf, true_and]; omega) rfl rfl
    · next hf => rw [if_neg fun h => hf h.1]; rfl
  rw [hlast, hframe, Option.none_or]

/-- A column of the row shows that of the window. -/
theorem shows_iff (frame : Bool) (line : Bytes) :
    ((fillCell h 0 line c).or ((charCell h 0 line c).or (tabCell 0 line c))).or
        (if frame = true then some 32 else none) = some (textColumn h line c) ↔
      ((expandTabs 0 line).length < 78 ∧ (expandTabs 0 line).length ≤ h + c) ∨
        (h + c < 78 ∧ ∃ b, (expandTabs 0 line)[h + c]? = some (some b)) ∨
        (textColumn h line c = 32 ∧
          (frame = true ∨ (expandTabs 0 line)[c]? = some none)) := by
  have hcol : ∀ k, columnAt 0 (expandTabs 0 line) k = (expandTabs 0 line)[k]? := fun _ => rfl
  rw [fillCell, charCell, tabCell, hcol, hcol, Nat.zero_add]
  by_cases hfill : (expandTabs 0 line).length < 78 ∧ (expandTabs 0 line).length ≤ h + c
  · simp [numViscol, hfill, textColumn]
  by_cases hchar : h + c < 78 ∧ ∃ b, (expandTabs 0 line)[h + c]? = some (some b)
  · obtain ⟨hlt, b, hb⟩ := hchar
    simp [numViscol, hfill, hlt, textColumn, hb]
  have hjoin : (if h + c < numViscol then ((expandTabs 0 line)[h + c]?).join else none) = none := by
    split
    · next hlt =>
      refine Option.eq_none_iff_forall_ne_some.mpr fun b hb => hchar ⟨hlt, b, ?_⟩
      exact Option.join_eq_some_iff.mp hb
    · rfl
  rw [hjoin, if_neg (show ¬(_ < numViscol ∧ _) from hfill), Option.none_or, Option.none_or,
    or_iff_right hfill, or_iff_right hchar]
  by_cases htab : (expandTabs 0 line)[c]? = some none <;> cases frame <;> simp [htab, eq_comm]

/-- **`view_update` shows the window of a line, and paints nothing beside it, if and only if** no
tab covers the last column, and each column of the window is behind the end of a line of less than
78 columns, or shows one of the first 78 columns, with a character there, or is blank and gets
its blank from the frame or from a tab in that column of the line. -/
theorem painted_viewUpdate_iff (v : Viewer) {h k m : ℕ} {span : Span} (hdirty : v.dirtyText = true)
    (hh : v.hscroll = h) (hk : k < min v.lines.length (numVislines - 1))
    (hm : v.vscroll + k = m) (hspan : v.lines[m]? = some span) {line : Bytes}
    (hline : span.text (v.data.getD []) = line) :
    ((∀ c < 78, painted (viewUpdate v).1 (c + 1 : ℕ) (k + 1) = some (textColumn h line c)) ∧
      ∀ i : Int, i < 1 ∨ 78 < i → painted (viewUpdate v).1 i (k + 1) = none) ↔
    (expandTabs 0 line)[77]? ≠ some none ∧
      ∀ c < 78, ((expandTabs 0 line).length < 78 ∧ (expandTabs 0 line).length ≤ h + c) ∨
        (h + c < 78 ∧ ∃ b, (expandTabs 0 line)[h + c]? = some (some b)) ∨
        (textColumn h line c = 32 ∧
          (v.dirtyFrame = true ∨ (expandTabs 0 line)[c]? = some none)) := by
  have hvline : v.line (v.vscroll + k) = line := (Viewer.line_of_getElem? hm hspan).trans hline
  have houtside : ∀ i : Int, i < 1 ∨ 78 < i → painted (viewUpdate v).1 i (k + 1) =
      if 78 < i ∧ i ≤ 80 then tabCell 0 line 77 else none := fun i hi => by
    have hframe : ¬(v.dirtyFrame = true ∧ 0 < i ∧ i ≤ numViscol) := by
      rw [show numViscol = 78 from rfl]
      omega
    rw [painted_viewUpdate v hdirty hk, hvline, hh, if_neg hframe, Option.or_none]
    exact painted_drawLine_outside hi 0 line
  have hbeside : (∀ i : Int, i < 1 ∨ 78 < i → painted (viewUpdate v).1 i (k + 1) = none) ↔
      (expandTabs 0 line)[77]? ≠ some none := by
    have htab : tabCell 0 line 77 = none ↔ (expandTabs 0 line)[77]? ≠ some none := by
      rw [tabCell, columnAt, if_pos (Nat.zero_le _)]
      simp
    rw [← htab]
    constructor
    · intro hall
      rw [← hall 79 (by omega), houtside 79 (by omega), if_pos (by omega)]
    · intro hnone i hi
      rw [houtside i hi, hnone, ite_self]
  rw [hbeside, and_comm]
  refine and_congr_right fun _ => forall₂_congr fun c hc => ?_
  have hframe : (v.dirtyFrame = true ∧ 0 < (c : Int) + 1 ∧ (c : Int) + 1 ≤ numViscol) ↔
      v.dirtyFrame = true := by
    rw [show numViscol = 78 from rfl]
    exact and_iff_left ⟨by omega, by omega⟩
  rw [painted_viewUpdate v hdirty hk, hvline, hh, Nat.cast_add_one, painted_drawLine hc,
    if_congr hframe rfl rfl]
  exact shows_iff v.dirtyFrame line

/-- A file of one line, scrolled by one column. -/
def scrolledShort : Viewer :=
  Viewer.init.run [.memopen (ascii "f") (some (ascii "ab\n")), .input .right]

theorem painted_viewUpdate_iff_short :
    (∀ c < 78, painted (viewUpdate scrolledShort).1 (c + 1 : ℕ) ((0 : ℕ) + 1) =
      some (textColumn 1 (ascii "ab") c)) ∧
      ∀ i : Int, i < 1 ∨ 78 < i →
        painted (viewUpdate scrolledShort).1 i ((0 : ℕ) + 1) = none := by
  have hline : Span.text (scrolledShort.data.getD []) ⟨0, 2⟩ = ascii "ab" := by decide
  refine (painted_viewUpdate_iff scrolledShort (h := 1) (m := 0) rfl rfl (by decide) rfl rfl
    hline).mpr ⟨by decide, fun c _ => ?_⟩
  have he : expandTabs 0 (ascii "ab") = [some 97, some 98] := by decide
  rw [he]
  by_cases hc : 2 ≤ 1 + c
  · exact .inl ⟨by decide, hc⟩
  · obtain rfl : c = 0 := by omega
    exact .inr (.inl ⟨by decide, 98, rfl⟩)

/-- A file of one line, that was shown before it was scrolled by three columns. -/
def scrolledTab : Viewer :=
  Viewer.init.run [.memopen (ascii "f") (some (ascii "ab\tc\n")), .update, .input .right,
    .input .right, .input .right]

/-- The first column of the window is one of the tab, and is not painted: the `a` that was there
stays. -/
theorem not_painted_tab : scrolledTab.dirtyText = true ∧ scrolledTab.hscroll = 3 ∧
    scrolledTab.line scrolledTab.vscroll = ascii "ab\tc" ∧
    ¬((∀ c < 78, painted (viewUpdate scrolledTab).1 (c + 1 : ℕ) ((0 : ℕ) + 1) =
      some (textColumn 3 (ascii "ab\tc") c)) ∧
      ∀ i : Int, i < 1 ∨ 78 < i →
        painted (viewUpdate scrolledTab).1 i ((0 : ℕ) + 1) = none) := by
  refine ⟨rfl, rfl, by decide, fun h => absurd (h.1 0 (by decide)) (by decide)⟩

end Visftp
