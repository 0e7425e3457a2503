import Visftp.CString
import Visftp.Lib.Stores

/-!
# The screen in text mode

`dos/tgfx.c`: an array of 25 rows of 80 words, each with a character and its colours, that the
functions store to without looking where. An address is a number of words from `framebuf`; what
lies beyond the 2000 words of the screen is memory too. `char` is unsigned, as the makefile's
compiler has it.

The hardware's cursor is left out. What `tg_text` prints is given by the text that `vsprintf` makes.

## Main definitions

* `Tg` — the static variables and the screen
* `tgFgcolor`, `tgBgcolor`, `tgColor`, `tgBgchar` — how the colours are set
* `tgPutchar`, `tgText`, `tgRect`, `tgClear` — what is drawn
* `cellAt`, `rectWord` — a cell, and what a rectangle shows there

## Main results

* `tgRect_framebuf`, `tgText_cell`, `tgPutchar_framebuf` — the screen after a call, by its cells
-/

namespace Visftp

open CString

/-- The static variables of `dos/tgfx.c`, and the memory at `framebuf`. -/
structure Tg where
  attr : UInt16
  bgcol : ℕ
  fgcol : ℕ
  bgchar : ℕ
  /-- `prev_y` of `tg_putchar` -/
  prevY : Int
  /-- `lineptr` of `tg_putchar`, `none` for a null pointer. -/
  lineptr : Option Int
  framebuf : Int → UInt16

/-- The static variables when the program starts. -/
def Tg.init (framebuf : Int → UInt16) : Tg := ⟨0x0700, 0, 7, 32, -1, none, framebuf⟩

/-- The static variables apart from the colours. -/
def Tg.setup (t : Tg) : ℕ × Int × Option Int := (t.bgchar, t.prevY, t.lineptr)

theorem Tg.bgchar_eq {t t' : Tg} (h : t'.setup = t.setup) : t'.bgchar = t.bgchar :=
  congrArg Prod.fst h

/-- The colours `TGFX_BLACK` to `TGFX_WHITE`. -/
inductive Color
  | black
  | blue
  | green
  | cyan
  | red
  | magenta
  | yellow
  | white
  deriving DecidableEq, Repr

/-- The number of a colour. -/
def Color.code : Color → ℕ
  | .black => 0
  | .blue => 1
  | .green => 2
  | .cyan => 3
  | .red => 4
  | .magenta => 5
  | .yellow => 6
  | .white => 7

/-! ### Colours -/

/-- `UPD_ATTR` -/
def Tg.updAttr (t : Tg) : Tg :=
  { t with attr := UInt16.ofNat (t.fgcol <<< 8 ||| t.bgcol <<< 12) }

/-- `tg_fgcolor` -/
def tgFgcolor (col : ℕ) (t : Tg) : Tg := { t with fgcol := col &&& 15 }.updAttr

/-- `tg_bgcolor` -/
def tgBgcolor (col : ℕ) (t : Tg) : Tg := { t with bgcol := col &&& 15 }.updAttr

/-- `tg_color` -/
def tgColor (col : ℕ) (t : Tg) : Tg :=
  { t with fgcol := col &&& 15, bgcol := (col >>> 4) &&& 15, attr := UInt16.ofNat (col <<< 8) }

/-- `tg_bgchar` -/
def tgBgchar (c : ℕ) (t : Tg) : Tg := { t with bgchar := c }

/-- The attribute of two colours. -/
def colorAttr (fg bg : Color) : UInt16 := UInt16.ofNat (fg.code <<< 8 ||| bg.code <<< 12)

/-! ### Stores -/

/-- The address of a cell. -/
def cellAt (x y : Int) : Int := y * 80 + x

/-- Store to the memory at `framebuf`. -/
def Tg.store (ss : List (Int × UInt16)) (t : Tg) : Tg :=
  { t with framebuf := Stores.run ss t.framebuf }

/-- `tg_putchar`. A store through the null pointer does not reach the screen. -/
def tgPutchar (x y : Int) (c : ℕ) (t : Tg) : Tg :=
  let t := if y ≠ t.prevY then { t with lineptr := some (y * 80), prevY := y } else t
  match t.lineptr with
  | none => t
  | some ptr => t.store [(ptr + x, t.attr ||| UInt16.ofNat c)]

/-- The loop of `tg_vtext`. -/
def textStores (attr : UInt16) (base : Int) (s : Bytes) : List (Int × UInt16) :=
  (cstr s).zipIdx.map fun c => (base + c.2, attr ||| c.1.toUInt16)

/-- `tg_text` -/
def tgText (x y : Int) (s : Bytes) (t : Tg) : Tg := t.store (textStores t.attr (cellAt x y) s)

/-- The first loop of `tg_rect`. -/
def fillStores (w : UInt16) (base xsz ysz : Int) : List (Int × UInt16) :=
  (List.range ysz.toNat).flatMap fun i : ℕ => (List.range xsz.toNat).map fun j : ℕ =>
    (base + 80 * i + j, w)

/-- The second loop, along the upper and the lower border. -/
def rowStores (w : UInt16) (base xsz ysz : Int) : List (Int × UInt16) :=
  (List.range (xsz - 2).toNat).flatMap fun i : ℕ =>
    [(base + (i + 1), w), (base + ((ysz - 1) * 80 + i + 1), w)]

/-- The third loop, along the left and the right border. -/
def colStores (w : UInt16) (base xsz ysz : Int) : List (Int × UInt16) :=
  (List.range (ysz - 2).toNat).flatMap fun i : ℕ =>
    [(base + (i + 1) * 80, w), (base + ((xsz - 1) + (i + 1) * 80), w)]

/-- The corners. -/
def cornerStores (attr : UInt16) (base xsz ysz : Int) : List (Int × UInt16) :=
  [(base, attr ||| 0xc9), (base + (xsz - 1), attr ||| 0xbb),
    (base + (ysz - 1) * 80, attr ||| 0xc8), (base + (ysz - 1) * 80 + (xsz - 1), attr ||| 0xbc)]

/-- The border that `tg_rect` draws, from the cell at `base` on. -/
def frameStores (attr : UInt16) (base xsz ysz : Int) : List (Int × UInt16) :=
  rowStores (attr ||| 0xcd) base xsz ysz ++ colStores (attr ||| 0xba) base xsz ysz ++
    cornerStores attr base xsz ysz

/-- The part of a label that `tg_rect` prints. -/
def clipLabel (maxlen : Int) (label : Bytes) : Bytes :=
  let s := cstr label
  if maxlen < s.length then s.drop (s.length - maxlen).toNat else s

/-- The label that `tg_rect` prints. -/
def labelStores (attr : UInt16) (x y xsz : Int) : Option Bytes → List (Int × UInt16)
  | none => []
  | some label =>
    if 8 ≤ xsz then textStores attr (cellAt (x + 2) y) (clipLabel (xsz - 4) label) else []

/-- All stores of `tg_rect`. -/
def rectStores (t : Tg) (label : Option Bytes) (x y xsz ysz : Int) (frame : Bool) :
    List (Int × UInt16) :=
  fillStores (t.attr ||| UInt16.ofNat t.bgchar) (cellAt x y) xsz ysz ++
  (if frame ∧ 2 ≤ xsz ∧ 2 ≤ ysz then frameStores t.attr (cellAt x y) xsz ysz else []) ++
  labelStores t.attr x y xsz label

/-- `tg_rect`; `frame` is the flag `TGFX_FRAME`, the only one it looks at. -/
def tgRect (label : Option Bytes) (x y xsz ysz : Int) (frame : Bool) (t : Tg) : Tg :=
  t.store (rectStores t label x y xsz ysz frame)

/-- `tg_clear` -/
def tgClear (t : Tg) : Tg := tgRect none 0 0 80 25 false t

/-- `tg_cleanup` -/
def tgCleanup (t : Tg) : Tg := t.store ((List.range 2000).map fun i : ℕ => ((i : Int), 0x0720))

/-- `tg_gchar` of `TGFX_RARROW`, or else of `TGFX_LARROW`. -/
def tgGchar (right : Bool) : Byte := if right then 0x1a else 0x1b

/-- The character of the border of a rectangle, `u` columns and `v` rows from its corner. -/
def borderChar (xsz ysz u v : Int) : Option UInt16 :=
  if v = ysz - 1 then if u = xsz - 1 then some 0xbc else if u = 0 then some 0xc8 else some 0xcd
  else if v = 0 then if u = xsz - 1 then some 0xbb else if u = 0 then some 0xc9 else some 0xcd
  else if u = 0 ∨ u = xsz - 1 then some 0xba
  else none

/-- The character of the label of a rectangle. -/
def labelChar (label : Option Bytes) (xsz u v : Int) : Option UInt16 :=
  if v = 0 ∧ 2 ≤ u ∧ 8 ≤ xsz then
    (label.bind fun l => (clipLabel (xsz - 4) l)[(u - 2).toNat]?).map UInt8.toUInt16
  else none

/-- **What a rectangle shows**: its label, else its border, else the background. -/
def rectWord (attr : UInt16) (bgchar : ℕ) (label : Option Bytes) (xsz ysz : Int) (frame : Bool)
    (u v : Int) : UInt16 :=
  attr ||| ((labelChar label xsz u v).or (if frame ∧ 2 ≤ xsz ∧ 2 ≤ ysz then borderChar xsz ysz u v
    else none)).getD (UInt16.ofNat bgchar)

/-! ### Cells -/

variable {attr w : UInt16} {i j x y xsz ysz base k : Int}

/-- Every address is the address of a cell, in a row that the screen may not have. -/
theorem exists_cellAt (k : Int) : ∃ i j, 0 ≤ i ∧ i < 80 ∧ cellAt i j = k := by
  refine ⟨k % 80, k / 80, Int.emod_nonneg k (by decide), Int.emod_lt_of_pos k (by decide), ?_⟩
  rw [cellAt]
  omega

/-- A cell has one address. -/
theorem cellAt_inj {i' j' : Int} (hi : 0 ≤ i ∧ i < 80) (hi' : 0 ≤ i' ∧ i' < 80) :
    cellAt i j = cellAt i' j' ↔ i = i' ∧ j = j' := by
  rw [cellAt, cellAt]
  omega

/-- What a text stores, address by address. -/
theorem last_textStores (attr : UInt16) (base : Int) (s : Bytes) (k : Int) :
    Stores.last (textStores attr base s) k =
      if base ≤ k then ((cstr s)[(k - base).toNat]?).map fun c => attr ||| c.toUInt16
      else none := by
  have hfrom : ∀ (l : Bytes) (n : ℕ),
      Stores.last ((l.zipIdx n).map fun c => (base + c.2, attr ||| c.1.toUInt16)) k =
        if base + n ≤ k then (l[(k - base - n).toNat]?).map fun c => attr ||| c.toUInt16
        else none := by
    intro l
    induction l with
    | nil => intro n; simp
    | cons c l ih =>
      intro n
      rw [List.zipIdx_cons, List.map_cons, Stores.last_cons, ih]
      rcases lt_trichotomy k (base + n) with hlt | rfl | hgt
      · rw [if_neg (by push_cast; omega), if_neg (by omega), if_neg (by omega)]
        rfl
      · rw [if_neg (by push_cast; omega), if_pos rfl, if_pos le_rfl,
          show (base + (n : Int) - base - n).toNat = 0 by omega]
        rfl
      · rw [if_pos (by push_cast; omega), if_neg (by omega), if_pos (by omega), Option.or_none,
          show (k - base - n).toNat = (k - base - ((n + 1 : ℕ) : Int)).toNat + 1 by
            push_cast; omega, List.getElem?_cons_succ]
  rw [textStores, hfrom]
  simp

/-- What a rectangle of one character stores. -/
theorem last_fillStores (hx : 0 ≤ x ∧ x + xsz ≤ 80) (hi : 0 ≤ i ∧ i < 80) :
    Stores.last (fillStores w (cellAt x y) xsz ysz) (cellAt i j) =
      if (x ≤ i ∧ i < x + xsz) ∧ y ≤ j ∧ j < y + ysz then some w else none := by
  refine Stores.last_const (by simp [fillStores]; grind) ?_
  simp only [fillStores, List.mem_flatMap, List.mem_map, List.mem_range]
  constructor
  · rintro ⟨_, ⟨b, hb, a, ha, rfl⟩, heq⟩
    simp only [cellAt] at heq
    omega
  · intro h
    refine ⟨_, ⟨(j - y).toNat, by omega, (i - x).toNat, by omega, rfl⟩, ?_⟩
    simp only [cellAt]
    omega

/-- The loop over the upper and the lower border. -/
theorem last_rowStores (hx : 0 ≤ x ∧ x + xsz ≤ 80) (hi : 0 ≤ i ∧ i < 80) :
    Stores.last (rowStores w (cellAt x y) xsz ysz) (cellAt i j) =
      if (x < i ∧ i < x + xsz - 1) ∧ (j = y ∨ j = y + ysz - 1) then some w else none := by
  refine Stores.last_const (by simp [rowStores]; grind) ?_
  simp only [rowStores, List.mem_flatMap, List.mem_range, List.mem_cons, List.not_mem_nil, or_false]
  constructor
  · rintro ⟨_, ⟨a, ha, rfl | rfl⟩, heq⟩ <;> simp only [cellAt] at heq <;> omega
  · rintro ⟨h, rfl | rfl⟩
    · refine ⟨_, ⟨(i - x - 1).toNat, by omega, .inl rfl⟩, ?_⟩
      simp only [cellAt]
      omega
    · refine ⟨_, ⟨(i - x - 1).toNat, by omega, .inr rfl⟩, ?_⟩
      simp only [cellAt]
      omega

/-- The loop over the left and the right border. -/
theorem last_colStores (hx : 0 ≤ x ∧ x + xsz ≤ 80) (hx2 : 2 ≤ xsz) (hi : 0 ≤ i ∧ i < 80) :
    Stores.last (colStores w (cellAt x y) xsz ysz) (cellAt i j) =
      if (i = x ∨ i = x + xsz - 1) ∧ y < j ∧ j < y + ysz - 1 then some w else none := by
  refine Stores.last_const (by simp [colStores]; grind) ?_
  simp only [colStores, List.mem_flatMap, List.mem_range, List.mem_cons, List.not_mem_nil, or_false]
  constructor
  · rintro ⟨_, ⟨b, hb, rfl | rfl⟩, heq⟩ <;> simp only [cellAt] at heq <;> omega
  · rintro ⟨rfl | rfl, h⟩
    · refine ⟨_, ⟨(j - y - 1).toNat, by omega, .inl rfl⟩, ?_⟩
      simp only [cellAt]
      omega
    · refine ⟨_, ⟨(j - y - 1).toNat, by omega, .inr rfl⟩, ?_⟩
      simp only [cellAt]
      omega

/-- The corners. -/
theorem last_cornerStores (hx : 0 ≤ x ∧ x + xsz ≤ 80) (hx2 : 2 ≤ xsz) (hi : 0 ≤ i ∧ i < 80) :
    Stores.last (cornerStores attr (cellAt x y) xsz ysz) (cellAt i j) =
      if i = x + xsz - 1 ∧ j = y + ysz - 1 then some (attr ||| 0xbc)
      else if i = x ∧ j = y + ysz - 1 then some (attr ||| 0xc8)
      else if i = x + xsz - 1 ∧ j = y then some (attr ||| 0xbb)
      else if i = x ∧ j = y then some (attr ||| 0xc9)
      else none := by
  have h₁ : cellAt i j = cellAt x y ↔ i = x ∧ j = y := by simp only [cellAt]; omega
  have h₂ : cellAt i j = cellAt x y + (xsz - 1) ↔ i = x + xsz - 1 ∧ j = y := by
    simp only [cellAt]; omega
  have h₃ : cellAt i j = cellAt x y + (ysz - 1) * 80 ↔ i = x ∧ j = y + ysz - 1 := by
    simp only [cellAt]; omega
  have h₄ : cellAt i j = cellAt x y + (ysz - 1) * 80 + (xsz - 1) ↔
      i = x + xsz - 1 ∧ j = y + ysz - 1 := by
    simp only [cellAt]; omega
  simp only [cornerStores, Stores.last_cons, Stores.last_nil, h₁, h₂, h₃, h₄, Option.none_or]
  split_ifs <;> rfl

/-- What the border stores. -/
theorem last_frameStores (hx : 0 ≤ x ∧ x + xsz ≤ 80) (hx2 : 2 ≤ xsz) (hy2 : 2 ≤ ysz)
    (hi : 0 ≤ i ∧ i < 80) :
    Stores.last (frameStores attr (cellAt x y) xsz ysz) (cellAt i j) =
      if (x ≤ i ∧ i < x + xsz) ∧ y ≤ j ∧ j < y + ysz then
        (borderChar xsz ysz (i - x) (j - y)).map (attr ||| ·)
      else none := by
  rw [frameStores, Stores.last_append, Stores.last_append, last_rowStores hx hi,
    last_colStores hx hx2 hi, last_cornerStores hx hx2 hi, borderChar]
  by_cases hin : (x ≤ i ∧ i < x + xsz) ∧ y ≤ j ∧ j < y + ysz
  swap
  · rw [if_neg hin]
    simp (disch := omega) only [if_neg]
    rfl
  rw [if_pos hin]
  by_cases hlow : j = y + ysz - 1
  · by_cases hright : i = x + xsz - 1
    · simp (disch := omega) only [if_pos]; rfl
    by_cases hleft : i = x
    · simp (disch := omega) only [if_pos, if_neg]; rfl
    · simp (disch := omega) only [if_pos, if_neg]; rfl
  by_cases hup : j = y
  · by_cases hright : i = x + xsz - 1
    · simp (disch := omega) only [if_pos, if_neg]; rfl
    by_cases hleft : i = x
    · simp (disch := omega) only [if_pos, if_neg]; rfl
    · simp (disch := omega) only [if_pos, if_neg]; rfl
  by_cases hside : i = x ∨ i = x + xsz - 1
  · simp (disch := omega) only [if_pos, if_neg]; rfl
  · simp (disch := omega) only [if_neg]; rfl

/-! ### Colours and characters -/

section Fields

variable (t : Tg) (ss : List (Int × UInt16)) (label : Option Bytes) (frame : Bool) (s : Bytes)
  (fg bg : Color)

@[simp] theorem attr_store : (t.store ss).attr = t.attr := rfl

@[simp] theorem bgchar_store : (t.store ss).bgchar = t.bgchar := rfl

@[simp] theorem attr_tgRect : (tgRect label x y xsz ysz frame t).attr = t.attr := rfl

@[simp] theorem bgcol_tgRect : (tgRect label x y xsz ysz frame t).bgcol = t.bgcol := rfl

@[simp] theorem fgcol_tgRect : (tgRect label x y xsz ysz frame t).fgcol = t.fgcol := rfl

@[simp] theorem bgchar_tgRect : (tgRect label x y xsz ysz frame t).bgchar = t.bgchar := rfl

@[simp] theorem attr_tgText : (tgText x y s t).attr = t.attr := rfl

@[simp] theorem bgcol_tgText : (tgText x y s t).bgcol = t.bgcol := rfl

@[simp] theorem fgcol_tgText : (tgText x y s t).fgcol = t.fgcol := rfl

@[simp] theorem bgchar_tgText : (tgText x y s t).bgchar = t.bgchar := rfl

@[simp] theorem framebuf_tgFgcolor (col : ℕ) : (tgFgcolor col t).framebuf = t.framebuf := rfl

@[simp] theorem framebuf_tgBgcolor (col : ℕ) : (tgBgcolor col t).framebuf = t.framebuf := rfl

@[simp] theorem bgchar_tgFgcolor (col : ℕ) : (tgFgcolor col t).bgchar = t.bgchar := rfl

@[simp] theorem bgchar_tgBgcolor (col : ℕ) : (tgBgcolor col t).bgchar = t.bgchar := rfl

@[simp] theorem bgcol_tgFgcolor (col : ℕ) : (tgFgcolor col t).bgcol = t.bgcol := rfl

@[simp] theorem fgcol_tgBgcolor (col : ℕ) : (tgBgcolor col t).fgcol = t.fgcol := rfl

@[simp] theorem bgcol_tgBgcolor : (tgBgcolor bg.code t).bgcol = bg.code := by cases bg <;> rfl

@[simp] theorem fgcol_tgFgcolor : (tgFgcolor fg.code t).fgcol = fg.code := by cases fg <;> rfl

/-- The foreground colour is set behind the background colour. -/
theorem attr_tgFgcolor (h : t.bgcol = bg.code) :
    (tgFgcolor fg.code t).attr = colorAttr fg bg := by
  show UInt16.ofNat ((fg.code &&& 15) <<< 8 ||| t.bgcol <<< 12) = _
  rw [h]
  cases fg <;> rfl

/-- The background colour is set behind the foreground colour. -/
theorem attr_tgBgcolor (h : t.fgcol = fg.code) :
    (tgBgcolor bg.code t).attr = colorAttr fg bg := by
  show UInt16.ofNat (t.fgcol <<< 8 ||| (bg.code &&& 15) <<< 12) = _
  rw [h]
  cases bg <;> rfl

end Fields

/-! ### The screen after a call -/

theorem cstr_clipLabel (maxlen : Int) (label : Bytes) :
    cstr (clipLabel maxlen label) = clipLabel maxlen label := by
  refine cstr_eq_self fun h => nul_notMem_cstr label ?_
  rw [clipLabel] at h
  split at h
  · exact List.mem_of_mem_drop h
  · exact h

theorem length_clipLabel {maxlen : Int} (h : 0 ≤ maxlen) (label : Bytes) :
    (clipLabel maxlen label).length ≤ maxlen := by
  rw [clipLabel]
  split
  · rw [List.length_drop]
    omega
  · omega

/-- What the label stores. -/
theorem last_labelStores (hx : 0 ≤ x ∧ x + xsz ≤ 80) (hi : 0 ≤ i ∧ i < 80) (label : Option Bytes) :
    Stores.last (labelStores attr x y xsz label) (cellAt i j) =
      (labelChar label xsz (i - x) (j - y)).map (attr ||| ·) := by
  cases label with
  | none => simp [labelStores, labelChar]
  | some label =>
    rw [labelStores, labelChar]
    by_cases hxsz : 8 ≤ xsz
    swap
    · rw [if_neg hxsz, if_neg (by omega)]
      rfl
    have hlen := length_clipLabel (show 0 ≤ xsz - 4 by omega) label
    rw [if_pos hxsz, last_textStores, cstr_clipLabel]
    by_cases hv : j = y ∧ x + 2 ≤ i
    · rw [if_pos (by simp only [cellAt]; omega), if_pos (by omega),
        show (cellAt i j - cellAt (x + 2) y).toNat = (i - x - 2).toNat by simp only [cellAt]; omega]
      simp [Option.map_map, Function.comp_def]
    · rw [if_neg (c := j - y = 0 ∧ 2 ≤ i - x ∧ 8 ≤ xsz) (by omega)]
      split
      · rw [List.getElem?_eq_none (by simp only [cellAt] at *; omega)]
        rfl
      · rfl

theorem labelChar_eq_none {u v : Int} {label : Option Bytes} (h : v ≠ 0 ∨ u < 2 ∨ xsz - 2 ≤ u) :
    labelChar label xsz u v = none := by
  rw [labelChar]
  split
  · next hv =>
    cases label with
    | none => rfl
    | some label =>
      have hlen := length_clipLabel (show 0 ≤ xsz - 4 by omega) label
      rw [Option.bind_some, List.getElem?_eq_none (by omega)]
      rfl
  · rfl

/-- What `tg_rect` stores. -/
theorem last_rectStores (t : Tg) (label : Option Bytes) (frame : Bool)
    (hx : 0 ≤ x ∧ x + xsz ≤ 80) (hysz : 0 < ysz) (hi : 0 ≤ i ∧ i < 80) :
    Stores.last (rectStores t label x y xsz ysz frame) (cellAt i j) =
      if (x ≤ i ∧ i < x + xsz) ∧ y ≤ j ∧ j < y + ysz then
        some (rectWord t.attr t.bgchar label xsz ysz frame (i - x) (j - y))
      else none := by
  have hframe : Stores.last (if frame ∧ 2 ≤ xsz ∧ 2 ≤ ysz then
      frameStores t.attr (cellAt x y) xsz ysz else []) (cellAt i j) =
        if (x ≤ i ∧ i < x + xsz) ∧ y ≤ j ∧ j < y + ysz then
          (if frame ∧ 2 ≤ xsz ∧ 2 ≤ ysz then borderChar xsz ysz (i - x) (j - y)
            else none).map (t.attr ||| ·)
        else none := by
    split
    · next h => exact last_frameStores hx h.2.1 h.2.2 hi
    · simp
  rw [rectStores, Stores.last_append, Stores.last_append, last_fillStores hx hi, hframe,
    last_labelStores hx hi, rectWord]
  split
  · cases labelChar label xsz (i - x) (j - y) with
    | some c => rfl
    | none =>
      cases (if frame ∧ 2 ≤ xsz ∧ 2 ≤ ysz then borderChar xsz ysz (i - x) (j - y) else none) <;> rfl
  · next hout =>
    rw [labelChar_eq_none (by omega)]
    rfl

/-- **The screen after `tg_rect`**, cell by cell. -/
theorem tgRect_framebuf (t : Tg) (label : Option Bytes) (frame : Bool) (hx : 0 ≤ x ∧ x + xsz ≤ 80)
    (hysz : 0 < ysz) (hi : 0 ≤ i ∧ i < 80) :
    (tgRect label x y xsz ysz frame t).framebuf (cellAt i j) =
      if (x ≤ i ∧ i < x + xsz) ∧ y ≤ j ∧ j < y + ysz then
        rectWord t.attr t.bgchar label xsz ysz frame (i - x) (j - y)
      else t.framebuf (cellAt i j) := by
  show Stores.run _ _ _ = _
  rw [Stores.run_apply, last_rectStores t label frame hx hysz hi]
  split <;> rfl

/-- The screen after `tg_text`, where the text does not go on in the next row. -/
theorem tgText_cell (t : Tg) {s : Bytes} (hx : 0 ≤ x) (hlen : x + (cstr s).length ≤ 80)
    (hi : 0 ≤ i ∧ i < 80) :
    (tgText x y s t).framebuf (cellAt i j) =
      ((if j = y ∧ x ≤ i then (cstr s)[(i - x).toNat]? else none).map fun c =>
        t.attr ||| c.toUInt16).getD (t.framebuf (cellAt i j)) := by
  show Stores.run _ _ _ = _
  rw [Stores.run_apply, last_textStores]
  by_cases hrow : j = y ∧ x ≤ i
  · rw [if_pos hrow, if_pos (by simp only [cellAt]; omega),
      show (cellAt i j - cellAt x y).toNat = (i - x).toNat by simp only [cellAt]; omega]
  · rw [if_neg hrow]
    split
    · rw [List.getElem?_eq_none (by simp only [cellAt] at *; omega)]
    · rfl

/-- The line that `tg_putchar` has stored to last is found again. -/
def Tg.Cached (t : Tg) : Prop :=
  t.lineptr = some (t.prevY * 80) ∨ t.lineptr = none ∧ t.prevY = -1

theorem Tg.Cached.congr {t t' : Tg} (h : t.Cached) (hs : t'.setup = t.setup) : t'.Cached := by
  have hprev : t'.prevY = t.prevY := congrArg (fun u => u.2.1) hs
  have hptr : t'.lineptr = t.lineptr := congrArg (fun u => u.2.2) hs
  rw [Cached, hprev, hptr]
  exact h

/-- The screen after `tg_putchar`, in no row above it. -/
theorem tgPutchar_framebuf {t : Tg} (h : t.Cached) (hy : 0 ≤ y) (c : ℕ) (k : Int) :
    (tgPutchar x y c t).framebuf k =
      if k = cellAt x y then t.attr ||| UInt16.ofNat c else t.framebuf k := by
  rw [tgPutchar]
  by_cases hprev : y = t.prevY
  · have hptr : t.lineptr = some (y * 80) := by
      rcases h with h | ⟨-, h⟩
      · rw [h, hprev]
      · omega
    rw [if_neg (not_not.mpr hprev)]
    rw [hptr]
    exact Function.update_apply _ _ _ _
  · rw [if_pos hprev]
    exact Function.update_apply _ _ _ _

theorem cached_tgPutchar {t : Tg} (h : t.Cached) (c : ℕ) : (tgPutchar x y c t).Cached := by
  rw [tgPutchar]
  by_cases hprev : y = t.prevY
  · rw [if_neg (not_not.mpr hprev)]
    cases hptr : t.lineptr with
    | none => exact h
    | some p => exact h
  · rw [if_pos hprev]
    exact .inl rfl

end Visftp
