import Visftp.Curses
import Visftp.Lib.FirstUses
import Visftp.Tgfx

/-!
# The screen of the unix version

`unix/tgfx.c`: the functions of `tgfx.h` by calls of curses. The two colours that are set become a
pair when something is drawn: `upd_color` looks for them among the pairs it has, and makes a new one
if there is room. When there are `COLORS` pairs there is none, and what is drawn has the colours of
what was drawn before it.

A character of `tg_putchar` and the texts are bytes; `isprint` is that of the C locale.

## Main definitions

* `UnixTg`, `UnixTg.updColor` — the static variables, and how a pair is found
* `UnixTg.tgPutchar`, `UnixTg.tgText`, `UnixTg.tgRect` — what is drawn
* `TgCall`, `UnixTg.run` — calls of `tgfx.h`
* `drawnColors` — the colours that are set when something is drawn

## Main results

* `updColor_run` — in which colours everything is drawn
-/

namespace Visftp

open CString

/-- `struct cpair` -/
structure Cpair where
  pair : ℕ
  fg : ℕ
  bg : ℕ
  deriving DecidableEq, Repr

/-- The static variables of `unix/tgfx.c`, and the state of curses. The entries of `colors` in use
are a list, so that `num_colors` is its length. -/
structure UnixTg (σ : Type*) where
  colors : List Cpair
  fgcol : ℕ
  bgcol : ℕ
  bgchar : ℕ
  curPair : ℕ
  curX : Int
  curY : Int
  scr : σ

/-- `curses_color`, with the numbers of `COLOR_RED`, `COLOR_BLUE`, `COLOR_CYAN` and
`COLOR_YELLOW`. -/
def cursesColor (col : ℕ) : ℕ :=
  match col with
  | 4 => 1
  | 1 => 4
  | 3 => 6
  | 6 => 3
  | col => col

/-- Two colours of `tgfx.h`. -/
structure TgColors where
  fg : Color
  bg : Color
  deriving DecidableEq, Repr

/-- The colours of curses for two of `tgfx.h`. -/
def cursesPair (p : TgColors) : ℕ × ℕ := (cursesColor p.fg.code, cursesColor p.bg.code)

/-- `isprint` -/
def isprint (c : Byte) : Bool := decide (32 ≤ c) && decide (c ≤ 126)

namespace UnixTg

variable {σ : Type*}

/-- A call of curses. -/
def calling (f : σ → σ) (u : UnixTg σ) : UnixTg σ := { u with scr := f u.scr }

/-- `upd_color` -/
def updColor (c : Curses σ) (u : UnixTg σ) : UnixTg σ :=
  match u.colors.find? fun e => u.fgcol = e.fg ∧ u.bgcol = e.bg with
  | some e => { u with curPair := e.pair }
  | none =>
    if c.colors ≤ u.colors.length then u
    else
      let curPair := u.colors.length + 1
      { u with
        colors := u.colors ++ [⟨curPair, u.fgcol, u.bgcol⟩]
        curPair := curPair
        scr := c.initPair curPair u.fgcol u.bgcol u.scr }

/-- `tg_init` -/
def tgInit (c : Curses σ) : UnixTg σ where
  colors := []
  fgcol := cursesColor Color.white.code
  bgcol := cursesColor Color.black.code
  bgchar := 32
  curPair := 0
  curX := 0
  curY := 0
  scr := c.start

/-- `tg_redraw` -/
def tgRedraw (c : Curses σ) (u : UnixTg σ) : UnixTg σ :=
  (u.calling (c.move u.curY u.curX)).calling c.refresh

/-- `tg_clear` -/
def tgClear (c : Curses σ) (u : UnixTg σ) : UnixTg σ := u.calling c.clear

/-- `tg_fgcolor` -/
def tgFgcolor (col : ℕ) (u : UnixTg σ) : UnixTg σ := { u with fgcol := cursesColor col }

/-- `tg_bgcolor` -/
def tgBgcolor (col : ℕ) (u : UnixTg σ) : UnixTg σ := { u with bgcol := cursesColor col }

/-- `tg_color` -/
def tgColor (col : ℕ) (u : UnixTg σ) : UnixTg σ :=
  { u with fgcol := cursesColor (col &&& 15), bgcol := cursesColor ((col >>> 4) &&& 15) }

/-- `tg_bgchar` -/
def tgBgchar (ch : ℕ) (u : UnixTg σ) : UnixTg σ := { u with bgchar := ch }

/-- `tg_setcursor` -/
def tgSetcursor (c : Curses σ) (x y : Int) (u : UnixTg σ) : UnixTg σ :=
  { u.calling (c.move y x) with curX := x, curY := y }

/-- `tg_putchar` -/
def tgPutchar (c : Curses σ) (x y : Int) (ch : Byte) (u : UnixTg σ) : UnixTg σ :=
  let u := u.updColor c
  let ch := if isprint ch then ch else 63
  (u.calling (c.move y x)).calling (c.addch ⟨.char ch.toNat, u.curPair⟩)

/-- `tg_text`, through `tg_vtext`. -/
def tgText (c : Curses σ) (x y : Int) (s : Bytes) (u : UnixTg σ) : UnixTg σ :=
  let u := u.updColor c
  (((u.calling (c.attron u.curPair)).calling (c.move y x)).calling (c.printw (cstr s))).calling
    (c.attroff u.curPair)

/-- The loop of `tg_rect`. -/
def fillRect (c : Curses σ) (x y xsz ysz : Int) (u : UnixTg σ) : UnixTg σ :=
  (List.range ysz.toNat).foldl (fun u (i : ℕ) =>
    (u.calling (c.move (y + i) x)).calling (c.hline ⟨.char u.bgchar, 0⟩ xsz)) u

/-- The calls for the frame in `tg_rect`. -/
def frameCalls (c : Curses σ) (x y xsz ysz : Int) : List (σ → σ) :=
  [c.move y (x + 1), c.hline ⟨.hline, 0⟩ (xsz - 2),
    c.move (y + ysz - 1) (x + 1), c.hline ⟨.hline, 0⟩ (xsz - 2),
    c.move (y + 1) x, c.vline ⟨.vline, 0⟩ (ysz - 2),
    c.move (y + 1) (x + xsz - 1), c.vline ⟨.vline, 0⟩ (ysz - 2),
    c.move y x, c.addch ⟨.ulcorner, 0⟩,
    c.move y (x + xsz - 1), c.addch ⟨.urcorner, 0⟩,
    c.move (y + ysz - 1) x, c.addch ⟨.llcorner, 0⟩,
    c.move (y + ysz - 1) (x + xsz - 1), c.addch ⟨.lrcorner, 0⟩]

/-- The label of `tg_rect`. -/
def rectLabel (c : Curses σ) (label : Option Bytes) (x y xsz : Int) (u : UnixTg σ) : UnixTg σ :=
  match label with
  | none => u
  | some label => if 8 ≤ xsz then tgText c (x + 2) y (clipLabel (xsz - 4) label) u else u

/-- `tg_rect`; `frame` is the flag `TGFX_FRAME`. -/
def tgRect (c : Curses σ) (label : Option Bytes) (x y xsz ysz : Int) (frame : Bool)
    (u : UnixTg σ) : UnixTg σ :=
  let u := u.updColor c
  let u := fillRect c x y xsz ysz (u.calling (c.attron u.curPair))
  let u := if frame ∧ 2 ≤ xsz ∧ 2 ≤ ysz then
      (frameCalls c x y xsz ysz).foldl (fun u f => u.calling f) u
    else u
  let u := rectLabel c label x y xsz u
  (u.calling (c.attroff u.curPair)).calling c.refresh

end UnixTg

/-! ### Runs -/

/-- A call of a function of `tgfx.h`. The colours are those of its enumeration. -/
inductive TgCall
  | redraw
  | clear
  | fgcolor (col : Color)
  | bgcolor (col : Color)
  | color (fg bg : Color)
  | bgchar (c : ℕ)
  | setcursor (x y : Int)
  | putchar (x y : Int) (c : Byte)
  | text (x y : Int) (s : Bytes)
  | rect (label : Option Bytes) (x y xsz ysz : Int) (frame : Bool)

namespace TgCall

/-- The colours that are set. -/
def recolor : TgCall → TgColors → TgColors
  | .fgcolor col, p => { p with fg := col }
  | .bgcolor col, p => { p with bg := col }
  | .color fg bg, _ => ⟨fg, bg⟩
  | _, p => p

/-- Something is drawn in these colours. `tg_clear` is without colours. -/
def draws : TgCall → Bool
  | .putchar .. | .text .. | .rect .. => true
  | _ => false

end TgCall

/-- The colours that are set whenever something is drawn. -/
def drawnColors : List TgCall → TgColors → List TgColors
  | [], _ => []
  | call :: calls, p =>
    (if call.draws then [p] else []) ++ drawnColors calls (call.recolor p)

namespace UnixTg

variable {σ : Type*}

/-- One call. -/
def step (c : Curses σ) (u : UnixTg σ) : TgCall → UnixTg σ
  | .redraw => tgRedraw c u
  | .clear => tgClear c u
  | .fgcolor col => tgFgcolor col.code u
  | .bgcolor col => tgBgcolor col.code u
  | .color fg bg => tgColor (fg.code ||| bg.code <<< 4) u
  | .bgchar ch => tgBgchar ch u
  | .setcursor x y => tgSetcursor c x y u
  | .putchar x y ch => tgPutchar c x y ch u
  | .text x y s => tgText c x y s u
  | .rect label x y xsz ysz frame => tgRect c label x y xsz ysz frame u

/-- The calls of a run, one after the other. -/
def run (c : Curses σ) (u : UnixTg σ) (calls : List TgCall) : UnixTg σ := calls.foldl (step c) u

/-- The colours of the pair that was used last, if one was. -/
def shown (c : Curses σ) (u : UnixTg σ) : Option (ℕ × ℕ) :=
  if u.curPair = 0 then none else some (c.pair u.scr u.curPair)

end UnixTg

/-! ### The table of pairs -/

/-- The colours of curses are those of `tgfx.h` in another order. -/
theorem cursesPair_injective : Function.Injective cursesPair := by
  have hcol : ∀ a b : Color, cursesColor a.code = cursesColor b.code → a = b := by
    intro a b
    cases a <;> cases b <;> decide
  rintro ⟨fg, bg⟩ ⟨fg', bg'⟩ h
  rw [hcol fg fg' (congrArg Prod.fst h), hcol bg bg' (congrArg Prod.snd h)]

theorem cursesColor_lt (col : Color) : cursesColor col.code < 8 := by
  cases col <;> decide

/-- The array `colors` for a table of colours, whose numbers go on from `k`. -/
def cpairs (k : ℕ) (names : List TgColors) : List Cpair :=
  (names.zipIdx k).map fun q => ⟨q.2, (cursesPair q.1).1, (cursesPair q.1).2⟩

/-- The loop of `upd_color`. -/
theorem find_cpairs (k : ℕ) (names : List TgColors) (p : TgColors) :
    ((cpairs k names).find? fun e => (cursesPair p).1 = e.fg ∧ (cursesPair p).2 = e.bg) =
      if p ∈ names then some ⟨k + names.idxOf p, (cursesPair p).1, (cursesPair p).2⟩ else none := by
  induction names generalizing k with
  | nil => rfl
  | cons q names ih =>
    have hsame : ((cursesPair p).1 = (cursesPair q).1 ∧ (cursesPair p).2 = (cursesPair q).2) ↔
        p = q := by
      rw [← Prod.ext_iff]
      exact cursesPair_injective.eq_iff
    rw [cpairs, List.zipIdx_cons, List.map_cons, List.find?_cons]
    by_cases h : p = q
    · subst h
      simp
    · have ih' := ih (k + 1)
      rw [cpairs] at ih'
      simp only [hsame, h, decide_false, ih', List.mem_cons, false_or,
        List.idxOf_cons_ne _ (Ne.symm h)]
      refine if_congr Iff.rfl ?_ rfl
      rw [Nat.succ_eq_add_one, Nat.add_right_comm, ← Nat.add_assoc]

namespace UnixTg

variable {σ : Type*} {c : Curses σ} {t : FirstUses TgColors} {p : TgColors} {u u' : UnixTg σ}

/-- **The invariant**: the array has the colours of a table of first uses, `cur_pair` is the number
that the table remembers, and every pair has its colours in curses. -/
structure Tracks (c : Curses σ) (t : FirstUses TgColors) (p : TgColors) (u : UnixTg σ) :
    Prop where
  fgcol_eq : u.fgcol = (cursesPair p).1
  bgcol_eq : u.bgcol = (cursesPair p).2
  colors_eq : u.colors = cpairs 1 t.names
  curPair_eq : u.curPair = t.last
  last_le : t.last ≤ t.names.length
  length_le : t.names.length ≤ c.colors
  pair_eq : ∀ i q, t.names[i]? = some q → c.pair u.scr (i + 1) = cursesPair q

namespace Tracks

theorem tgInit (c : Curses σ) : Tracks c FirstUses.empty ⟨.white, .black⟩ (tgInit c) where
  fgcol_eq := rfl
  bgcol_eq := rfl
  colors_eq := rfl
  curPair_eq := rfl
  last_le := le_rfl
  length_le := Nat.zero_le _
  pair_eq i q h := by simp [FirstUses.empty] at h

/-- Other variables do not matter. -/
theorem congr (h : Tracks c t p u) (hfg : u'.fgcol = u.fgcol) (hbg : u'.bgcol = u.bgcol)
    (hcolors : u'.colors = u.colors) (hcur : u'.curPair = u.curPair)
    (hpair : c.pair u'.scr = c.pair u.scr) : Tracks c t p u' where
  fgcol_eq := hfg.trans h.fgcol_eq
  bgcol_eq := hbg.trans h.bgcol_eq
  colors_eq := hcolors.trans h.colors_eq
  curPair_eq := hcur.trans h.curPair_eq
  last_le := h.last_le
  length_le := h.length_le
  pair_eq i q hq := by rw [hpair, h.pair_eq i q hq]

theorem calling (hc : c.Documented) {f : σ → σ} (hf : c.Draws f) (h : Tracks c t p u) :
    Tracks c t p (u.calling f) :=
  h.congr rfl rfl rfl rfl (hc.pair_draws f hf u.scr)

/-- `upd_color` asks the table for the colours that are set. -/
theorem updColor (hc : c.Documented) (h8 : 8 ≤ c.colors) (hpairs : c.colors < c.colorPairs)
    (h : Tracks c t p u) : Tracks c (t.ask c.colors p) p (u.updColor c) := by
  have hlen : u.colors.length = t.names.length := by simp [h.colors_eq, cpairs]
  have hlast : (t.ask c.colors p).last ≤ (t.ask c.colors p).names.length :=
    FirstUses.last_ask_le p h.last_le
  have hlength : (t.ask c.colors p).names.length ≤ c.colors :=
    FirstUses.length_ask_le p h.length_le
  have hfind := find_cpairs 1 t.names p
  rw [← h.colors_eq, ← h.fgcol_eq, ← h.bgcol_eq] at hfind
  by_cases hmem : p ∈ t.names
  · rw [if_pos hmem] at hfind
    rw [FirstUses.ask, if_pos hmem] at hlast hlength
    rw [UnixTg.updColor, hfind, FirstUses.ask, if_pos hmem]
    exact
      { fgcol_eq := h.fgcol_eq
        bgcol_eq := h.bgcol_eq
        colors_eq := h.colors_eq
        curPair_eq := Nat.add_comm 1 _
        last_le := hlast
        length_le := hlength
        pair_eq := h.pair_eq }
  rw [if_neg hmem] at hfind
  rw [UnixTg.updColor, hfind, FirstUses.ask, if_neg hmem]
  dsimp only
  rw [hlen]
  by_cases hfull : c.colors ≤ t.names.length
  · rw [if_pos hfull, if_neg (not_lt.mpr hfull)]
    exact h
  rw [FirstUses.ask, if_neg hmem, if_pos (not_le.mp hfull)] at hlast hlength
  rw [if_neg hfull, if_pos (not_le.mp hfull)]
  exact
    { fgcol_eq := h.fgcol_eq
      bgcol_eq := h.bgcol_eq
      colors_eq := by
        rw [h.colors_eq, h.fgcol_eq, h.bgcol_eq]
        simp [cpairs, List.zipIdx_append, Nat.add_comm]
      curPair_eq := rfl
      last_le := hlast
      length_le := hlength
      pair_eq := fun i q hq => by
        rw [hc.pair_initPair _ _ _ _ (Nat.succ_pos _) (by omega)
          (h.fgcol_eq ▸ lt_of_lt_of_le (cursesColor_lt p.fg) h8)
          (h.bgcol_eq ▸ lt_of_lt_of_le (cursesColor_lt p.bg) h8)]
        rcases lt_trichotomy i t.names.length with hi | rfl | hi
        · rw [List.getElem?_append_left hi] at hq
          rw [Function.update_of_ne (by omega), h.pair_eq i q hq]
        · rw [List.getElem?_concat_length] at hq
          rw [Function.update_self, ← Option.some.inj hq, h.fgcol_eq, h.bgcol_eq]
        · rw [List.getElem?_eq_none (by rw [List.length_append, List.length_singleton]; omega)]
            at hq
          cases hq }

section Drawing

variable (hc : c.Documented) (h8 : 8 ≤ c.colors) (hpairs : c.colors < c.colorPairs)
include hc

theorem fillRect (x y xsz ysz : Int) (h : Tracks c t p u) :
    Tracks c t p (fillRect c x y xsz ysz u) := by
  rw [UnixTg.fillRect]
  induction List.range ysz.toNat generalizing u with
  | nil => exact h
  | cons i rows ih => exact ih ((h.calling hc (.move _ _)).calling hc (.hline _ _))

theorem foldl_calling (fs : List (σ → σ)) (hfs : ∀ f ∈ fs, c.Draws f) (h : Tracks c t p u) :
    Tracks c t p (fs.foldl (fun u f => u.calling f) u) := by
  induction fs generalizing u with
  | nil => exact h
  | cons f fs ih =>
    rw [List.forall_mem_cons] at hfs
    exact ih hfs.2 (h.calling hc hfs.1)

include h8 hpairs

theorem tgPutchar (x y : Int) (ch : Byte) (h : Tracks c t p u) :
    Tracks c (t.ask c.colors p) p (tgPutchar c x y ch u) :=
  ((h.updColor hc h8 hpairs).calling hc (.move y x)).calling hc (.addch _)

theorem tgText (x y : Int) (s : Bytes) (h : Tracks c t p u) :
    Tracks c (t.ask c.colors p) p (tgText c x y s u) :=
  ((((h.updColor hc h8 hpairs).calling hc (.attron _)).calling hc (.move y x)).calling hc
    (.printw _)).calling hc (.attroff _)

/-- The label is drawn in the colours of the rectangle, which are found again. -/
theorem rectLabel (label : Option Bytes) (x y xsz : Int) (h : Tracks c (t.ask c.colors p) p u) :
    Tracks c (t.ask c.colors p) p (rectLabel c label x y xsz u) := by
  cases label with
  | none => exact h
  | some label =>
    rw [UnixTg.rectLabel]
    split
    · have htext := h.tgText hc h8 hpairs (x + 2) y (clipLabel (xsz - 4) label)
      rw [FirstUses.ask_ask] at htext
      exact htext
    · exact h

theorem tgRect (label : Option Bytes) (x y xsz ysz : Int) (frame : Bool) (h : Tracks c t p u) :
    Tracks c (t.ask c.colors p) p (tgRect c label x y xsz ysz frame u) := by
  have hfill := ((h.updColor hc h8 hpairs).calling hc
    (.attron (u.updColor c).curPair)).fillRect hc x y xsz ysz
  refine ((rectLabel hc h8 hpairs label x y xsz ?_).calling hc (.attroff _)).calling hc .refresh
  split
  · refine hfill.foldl_calling hc _ ?_
    simp only [frameCalls, List.forall_mem_cons, List.not_mem_nil, false_implies, implies_true,
      and_true]
    exact ⟨.move _ _, .hline _ _, .move _ _, .hline _ _, .move _ _, .vline _ _, .move _ _,
      .vline _ _, .move _ _, .addch _, .move _ _, .addch _, .move _ _, .addch _, .move _ _,
      .addch _⟩
  · exact hfill

/-- **One call**: the table is asked for the colours that are set, if something is drawn. -/
theorem step (call : TgCall) (h : Tracks c t p u) :
    Tracks c (if call.draws then t.ask c.colors p else t) (call.recolor p) (step c u call) := by
  cases call with
  | redraw => exact (h.calling hc (.move _ _)).calling hc .refresh
  | clear => exact h.calling hc .clear
  | fgcolor col => exact { h with fgcol_eq := rfl }
  | bgcolor col => exact { h with bgcol_eq := rfl }
  | color fg bg =>
    have hnibbles : (fg.code ||| bg.code <<< 4) &&& 15 = fg.code ∧
        ((fg.code ||| bg.code <<< 4) >>> 4) &&& 15 = bg.code := by
      cases fg <;> cases bg <;> decide
    exact { h with
      fgcol_eq := congrArg cursesColor hnibbles.1
      bgcol_eq := congrArg cursesColor hnibbles.2 }
  | bgchar ch => exact h.congr rfl rfl rfl rfl rfl
  | setcursor x y => exact (h.calling hc (.move y x)).congr rfl rfl rfl rfl rfl
  | putchar x y ch => exact h.tgPutchar hc h8 hpairs x y ch
  | text x y s => exact h.tgText hc h8 hpairs x y s
  | rect label x y xsz ysz frame => exact h.tgRect hc h8 hpairs label x y xsz ysz frame

/-- **Any calls**: the table is asked for the colours of all that is drawn. -/
theorem run (calls : List TgCall) (h : Tracks c t p u) :
    ∃ p', Tracks c (FirstUses.run c.colors (drawnColors calls p) t) p' (run c u calls) := by
  induction calls generalizing t p u with
  | nil => exact ⟨p, h⟩
  | cons call calls ih =>
    have hstep := h.step hc h8 hpairs call
    rw [drawnColors]
    by_cases hdraws : call.draws = true
    · rw [if_pos hdraws] at hstep ⊢
      exact ih hstep
    · rw [if_neg hdraws] at hstep ⊢
      exact ih hstep

end Drawing

/-- The pair that was used last has the colours that the table remembers. -/
theorem shown_eq (h : Tracks c t p u) : u.shown c = t.current.map cursesPair := by
  rw [shown, FirstUses.current, h.curPair_eq]
  by_cases h0 : t.last = 0
  · rw [if_pos h0, if_pos h0]
    rfl
  · have hle := h.last_le
    have hlt : t.last - 1 < t.names.length := by omega
    have hpair := h.pair_eq (t.last - 1) _ (List.getElem?_eq_getElem hlt)
    rw [show t.last - 1 + 1 = t.last by omega] at hpair
    rw [if_neg h0, if_neg h0, List.getElem?_eq_getElem hlt, hpair]
    rfl

end Tracks

end UnixTg

/-- **In which colours everything is drawn**, after any calls, on a terminal with at least eight
colours and more pairs than colours: the array `colors` holds no more than its `COLORS` entries. The
pair that was used last has the colours of the last drawing whose colours are among the first
`COLORS` different ones, so that a drawing has the colours that are set if and only if they are. A
pair keeps its colours whatever is called then, and so does what is on the screen. -/
theorem updColor_run {σ : Type*} {c : Curses σ} (hc : c.Documented) (h8 : 8 ≤ c.colors)
    (hpairs : c.colors < c.colorPairs) (calls more : List TgCall) :
    let u := UnixTg.run c (UnixTg.tgInit c) calls
    let drawn := drawnColors calls ⟨.white, .black⟩
    let kept := drawn.eraseDups.take c.colors
    u.colors.length ≤ c.colors ∧
      u.shown c = (drawn.filter fun p => p ∈ kept).getLast?.map cursesPair ∧
      (∀ p, drawn.getLast? = some p → (u.shown c = some (cursesPair p) ↔ p ∈ kept)) ∧
      ∀ pair, 0 < pair → pair ≤ u.colors.length →
        c.pair (UnixTg.run c u more).scr pair = c.pair u.scr pair := by
  intro u drawn kept
  obtain ⟨p', h⟩ := (UnixTg.Tracks.tgInit c).run hc h8 hpairs calls
  obtain ⟨p'', h'⟩ := h.run hc h8 hpairs more
  have hlen : u.colors.length = (FirstUses.run c.colors drawn FirstUses.empty).names.length := by
    rw [h.colors_eq, cpairs, List.length_map, List.length_zipIdx]
  refine ⟨hlen ▸ h.length_le, ?_, ?_, ?_⟩
  · rw [h.shown_eq, FirstUses.remembered_run]
  · intro p hp
    rw [h.shown_eq, ← FirstUses.remembered_run_iff c.colors hp, Option.map_eq_some_iff]
    constructor
    · rintro ⟨q, hq, heq⟩
      rw [hq, cursesPair_injective heq]
    · intro hcur
      exact ⟨p, hcur, rfl⟩
  · intro pair hpos hle
    have hlt : pair - 1 < (FirstUses.run c.colors drawn FirstUses.empty).names.length := by omega
    obtain ⟨q, hq⟩ : ∃ q, (FirstUses.run c.colors drawn FirstUses.empty).names[pair - 1]? =
        some q := ⟨_, List.getElem?_eq_getElem hlt⟩
    have hkeeps : (FirstUses.run c.colors (drawnColors more p')
        (FirstUses.run c.colors drawn FirstUses.empty)).names[pair - 1]? = some q := by
      obtain ⟨tail, htail⟩ := FirstUses.prefix_run c.colors (drawnColors more p')
        (FirstUses.run c.colors drawn FirstUses.empty)
      rw [← htail, List.getElem?_append_left hlt, hq]
    have hold := h.pair_eq (pair - 1) q hq
    have hnew := h'.pair_eq (pair - 1) q hkeeps
    rw [Nat.sub_add_cancel hpos] at hold hnew
    exact hnew.trans hold.symm

/-- The line of the server and a list, on a terminal with eight colours. -/
theorem updColor_run_terminal :
    let calls := [TgCall.fgcolor .green, .bgcolor .black, .rect none 0 0 40 1 false,
      .text 0 0 (ascii "Srv: host"), .bgcolor .blue, .fgcolor .cyan,
      .rect (some (ascii "Remote")) 0 1 40 21 true]
    let c := terminal 8 64
    let u := UnixTg.run c (UnixTg.tgInit c) calls
    let drawn := drawnColors calls ⟨.white, .black⟩
    let kept := drawn.eraseDups.take c.colors
    u.colors.length ≤ c.colors ∧
      u.shown c = (drawn.filter fun p => p ∈ kept).getLast?.map cursesPair ∧
      (∀ p, drawn.getLast? = some p → (u.shown c = some (cursesPair p) ↔ p ∈ kept)) ∧
      ∀ pair, 0 < pair → pair ≤ u.colors.length →
        c.pair (UnixTg.run c u [.fgcolor .yellow, .putchar 1 2 0x61]).scr pair =
          c.pair u.scr pair :=
  updColor_run (documented_terminal 8 64) (by decide) (by decide) _
    [.fgcolor .yellow, .putchar 1 2 0x61]

end Visftp
