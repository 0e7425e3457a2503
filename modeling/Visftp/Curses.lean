import Mathlib.Logic.Function.Basic
import Visftp.CString

/-!
# What is used of curses

`unix/tgfx.c` draws with curses, which is a library of the system. Here it is a parameter: a type of
states, the calls that are made, and what is documented of colour pairs. A pair is a number that
stands for two colours; the characters on the screen refer to it, so that giving it other colours
changes the colours of what is already drawn. No call but `init_pair` does that.

## Main definitions

* `Curses` — the calls
* `Curses.Documented` — the assumptions on colour pairs
* `terminal` — a screen that is one

## Main results

* `documented_terminal` — the assumptions hold of it
-/

namespace Visftp

/-- A character of curses: a byte, or one of the lines and corners `ACS_HLINE` to `ACS_LRCORNER`. -/
inductive Glyph
  | char (c : ℕ)
  | hline
  | vline
  | ulcorner
  | urcorner
  | llcorner
  | lrcorner
  deriving DecidableEq, Repr

/-- `chtype`: a character and its `COLOR_PAIR`, `0` for none. -/
structure Chtype where
  glyph : Glyph
  pair : ℕ
  deriving DecidableEq, Repr

/-- The part of curses that is used, on a type of states. -/
structure Curses (σ : Type*) where
  /-- `COLORS` -/
  colors : ℕ
  /-- `COLOR_PAIRS` -/
  colorPairs : ℕ
  /-- What the calls of `tg_init` up to `start_color` leave. -/
  start : σ
  move : (y x : Int) → σ → σ
  addch : Chtype → σ → σ
  hline : Chtype → Int → σ → σ
  vline : Chtype → Int → σ → σ
  /-- `vw_printw` of the standard screen, of a text that is already formatted. -/
  printw : Bytes → σ → σ
  /-- `attron` of a `COLOR_PAIR` -/
  attron : ℕ → σ → σ
  /-- `attroff` of a `COLOR_PAIR` -/
  attroff : ℕ → σ → σ
  clear : σ → σ
  refresh : σ → σ
  initPair : (pair fg bg : ℕ) → σ → σ
  /-- The two colours of a pair, as `pair_content` gives them. -/
  pair : σ → ℕ → ℕ × ℕ

namespace Curses

variable {σ : Type*}

/-- The calls other than `init_pair`. -/
inductive Draws (c : Curses σ) : (σ → σ) → Prop
  | move (y x : Int) : c.Draws (c.move y x)
  | addch (ch : Chtype) : c.Draws (c.addch ch)
  | hline (ch : Chtype) (n : Int) : c.Draws (c.hline ch n)
  | vline (ch : Chtype) (n : Int) : c.Draws (c.vline ch n)
  | printw (s : Bytes) : c.Draws (c.printw s)
  | attron (pair : ℕ) : c.Draws (c.attron pair)
  | attroff (pair : ℕ) : c.Draws (c.attroff pair)
  | clear : c.Draws c.clear
  | refresh : c.Draws c.refresh

/-- **What is documented of colour pairs**: `init_pair` of a pair from `1` to `COLOR_PAIRS-1` and of
colours below `COLORS` sets that pair, and nothing else changes a pair. -/
structure Documented (c : Curses σ) : Prop where
  pair_draws : ∀ f, c.Draws f → ∀ s, c.pair (f s) = c.pair s
  pair_initPair : ∀ p fg bg s, 0 < p → p < c.colorPairs → fg < c.colors → bg < c.colors →
    c.pair (c.initPair p fg bg s) = Function.update (c.pair s) p (fg, bg)

end Curses

/-! ### A terminal -/

/-- A screen of 25 rows and 80 columns: the cursor, the pair that is on, the characters, and the
colours of the pairs. -/
structure TerminalState where
  y : Int
  x : Int
  attr : ℕ
  cell : Int → Int → Chtype
  pair : ℕ → ℕ × ℕ

namespace TerminalState

/-- A character gets the pair that is on, unless it has its own. -/
def put (ch : Chtype) (y x : Int) (s : TerminalState) : TerminalState :=
  { s with
    cell := fun j i =>
      if j = y ∧ i = x ∧ 0 ≤ y ∧ y < 25 ∧ 0 ≤ x ∧ x < 80 then
        ⟨ch.glyph, if ch.pair = 0 then s.attr else ch.pair⟩
      else s.cell j i }

theorem pair_put (ch : Chtype) (y x : Int) (s : TerminalState) : (s.put ch y x).pair = s.pair := rfl

/-- Characters in a row or in a column, from the cursor on. -/
def line (ch : Chtype) (dy dx : Int) (n : ℕ) (s : TerminalState) : TerminalState :=
  (List.range n).foldl (fun t (i : ℕ) => t.put ch (s.y + dy * i) (s.x + dx * i)) s

theorem pair_line (ch : Chtype) (dy dx : Int) (n : ℕ) (s : TerminalState) :
    (s.line ch dy dx n).pair = s.pair := by
  induction n with
  | zero => rfl
  | succ n ih =>
    rw [line, List.range_succ, List.foldl_append]
    exact (pair_put _ _ _ _).trans ih

/-- A character at the cursor, which goes on to the next column, or to the next row. -/
def addch (ch : Chtype) (s : TerminalState) : TerminalState :=
  let s' := s.put ch s.y s.x
  if s.x + 1 < 80 then { s' with x := s.x + 1 }
  else if s.y + 1 < 25 then { s' with y := s.y + 1, x := 0 }
  else s'

theorem pair_addch (ch : Chtype) (s : TerminalState) : (s.addch ch).pair = s.pair := by
  rw [addch]
  split
  · exact pair_put ch s.y s.x s
  split
  · exact pair_put ch s.y s.x s
  · exact pair_put ch s.y s.x s

/-- A text without control characters. -/
def printw (text : Bytes) (s : TerminalState) : TerminalState :=
  text.foldl (fun s b => s.addch ⟨.char b.toNat, 0⟩) s

theorem pair_printw (text : Bytes) (s : TerminalState) : (s.printw text).pair = s.pair := by
  induction text generalizing s with
  | nil => rfl
  | cons b text ih => exact (ih _).trans (pair_addch _ s)

end TerminalState

/-- A terminal with so many colours and pairs, as a curses. -/
def terminal (colors colorPairs : ℕ) : Curses TerminalState where
  colors := colors
  colorPairs := colorPairs
  start := ⟨0, 0, 0, fun _ _ => ⟨.char 32, 0⟩, fun _ => (7, 0)⟩
  move y x s := if 0 ≤ y ∧ y < 25 ∧ 0 ≤ x ∧ x < 80 then { s with y := y, x := x } else s
  addch := TerminalState.addch
  hline ch n s := s.line ch 0 1 n.toNat
  vline ch n s := s.line ch 1 0 n.toNat
  printw := TerminalState.printw
  attron pair s := { s with attr := pair }
  attroff _ s := { s with attr := 0 }
  clear s := { s with y := 0, x := 0, cell := fun _ _ => ⟨.char 32, 0⟩ }
  refresh s := s
  initPair p fg bg s :=
    if 0 < p ∧ p < colorPairs ∧ fg < colors ∧ bg < colors then
      { s with pair := Function.update s.pair p (fg, bg) }
    else s
  pair := TerminalState.pair

theorem documented_terminal (colors colorPairs : ℕ) :
    (terminal colors colorPairs).Documented where
  pair_draws f hf s := by
    cases hf with
    | move y x =>
      dsimp only [terminal]
      split <;> rfl
    | addch ch => exact TerminalState.pair_addch ch s
    | hline ch n => exact TerminalState.pair_line ch 0 1 n.toNat s
    | vline ch n => exact TerminalState.pair_line ch 1 0 n.toNat s
    | printw text => exact TerminalState.pair_printw text s
    | attron | attroff | clear | refresh => rfl
  pair_initPair p fg bg s hp hlt hfg hbg := by
    have hok : 0 < p ∧ p < colorPairs ∧ fg < colors ∧ bg < colors := ⟨hp, hlt, hfg, hbg⟩
    dsimp only [terminal]
    rw [if_pos hok]

end Visftp
