import Visftp.CString

/-!
# The file viewer

`viewer.c`. Its static variables are the `Viewer`, and the keys `view_input` looks at the
constructors of `ViewKey`. `view_update` is modelled by what it draws, one `Draw` for each call
into `tgfx.c`, and by the positions of `lines` that it reads: nothing keeps them inside the array.

`malloc_nf` and the darray functions end the program when there is no memory, so `lines` is a list.

## Main definitions

* `Span`, `Viewer`, `ViewKey` — the data
* `viewMemopen`, `viewClose`, `viewInput` — what changes it
* `viewReads`, `viewUpdate` — what is read and drawn
-/

namespace Visftp

open CString

/-- `struct span`: where a line starts in the contents, and its length. -/
structure Span where
  start : ℕ
  len : ℕ
  deriving DecidableEq, Repr

/-- The bytes of a span. -/
def Span.text (content : Bytes) (s : Span) : Bytes := (content.drop s.start).take s.len

/-- The static variables of `viewer.c`; `dirty` by its bits. -/
structure Viewer where
  title : Option Bytes
  lines : List Span
  /-- The contents of the open file, `none` for a null pointer. -/
  data : Option Bytes
  /-- `UI_TEXT` -/
  dirtyText : Bool
  /-- `UI_FRAME` -/
  dirtyFrame : Bool
  /-- `UI_BUTTONS` -/
  dirtyButtons : Bool
  hscroll : Int
  vscroll : Int
  deriving DecidableEq, Repr

/-- The viewer when the program starts. -/
def Viewer.init : Viewer := ⟨none, [], none, false, false, false, 0, 0⟩

/-- `num_vislines` -/
def numVislines : ℕ := 22

/-- `num_viscol` -/
def numViscol : ℕ := 78

/-- The keys of `view_input`. -/
inductive ViewKey
  /-- Escape and F10. -/
  | quit
  /-- The backquote. -/
  | redraw
  | home
  | fin
  | pgup
  | pgdn
  | up
  | down
  | left
  | right
  /-- Any other key. -/
  | other
  deriving DecidableEq, Repr

/-- The loop of `view_memopen` over the bytes that are left, `ptr` bytes behind the start of the
contents, when the line began `start` bytes behind it. -/
def scanSpans : Bytes → ℕ → ℕ → List Span
  | [], _, _ => []
  | b :: bs, ptr, start =>
    if b = cr ∨ b = lf then
      if start < ptr then ⟨start, ptr - start⟩ :: scanSpans bs (ptr + 1) (ptr + 1)
      else scanSpans bs (ptr + 1) (ptr + 1)
    else scanSpans bs (ptr + 1) start

/-- `view_memopen` of a buffer of `size` bytes, which is null only if `size` is `0`. The size of
`lines` is an `int`: an array from `2 ^ 26` lines on, whose allocation ends the program, is left
out. -/
def viewMemopen (name : Bytes) (start : Option Bytes) (v : Viewer) : Viewer :=
  { v with
    data := start
    title := some name
    lines := scanSpans (start.getD []) 0 0
    dirtyText := true, dirtyFrame := true, dirtyButtons := true }

/-- `view_close`. The array of lines is freed. -/
def viewClose (v : Viewer) : Viewer := { v with lines := [], data := none }

/-- `view_isopen` -/
def Viewer.isOpen (v : Viewer) : Bool := v.data.isSome

/-- `darr_size(lines)` -/
def Viewer.size (v : Viewer) : Int := v.lines.length

/-- The case `KB_END` of `view_input`. -/
def viewEnd (v : Viewer) : Viewer :=
  { v with vscroll := max 0 (v.size - numVislines + 1), hscroll := 0 }

/-- `view_input` -/
def viewInput (key : ViewKey) (v : Viewer) : Viewer :=
  let touched (v : Viewer) : Viewer := { v with dirtyText := true }
  match key with
  | .quit => touched (viewClose v)
  | .redraw => { v with dirtyText := true, dirtyFrame := true, dirtyButtons := true }
  | .home => touched { v with vscroll := 0, hscroll := 0 }
  | .fin => touched (viewEnd v)
  | .pgup => touched { v with vscroll := max 0 (v.vscroll - numVislines), hscroll := 0 }
  | .pgdn =>
    let v := { v with vscroll := v.vscroll + numVislines }
    let v := if v.size ≤ v.vscroll then touched (viewEnd v) else v
    touched { v with hscroll := 0 }
  | .up => touched { v with vscroll := if 0 < v.vscroll then v.vscroll - 1 else v.vscroll }
  | .down =>
    touched { v with vscroll := if v.vscroll < v.size - 1 then v.vscroll + 1 else v.vscroll }
  | .left => touched { v with hscroll := if 0 < v.hscroll then v.hscroll - 1 else v.hscroll }
  | .right => touched { v with hscroll := v.hscroll + 1 }
  | .other => v

/-! ### Drawing -/

/-- A call into `tgfx.c`: a rectangle of blanks, a frame with a title, a character, a text. -/
inductive Draw
  | rect (x y width height : Int)
  | frame (title : Option Bytes) (x y width height : Int)
  | putchar (x y : Int) (c : Byte)
  | text (x y : Int) (s : Bytes)
  deriving DecidableEq, Repr

/-- The loop of `view_update` over the bytes of a line that are left, from column `x` on. -/
def drawLine (hscroll row : Int) : ℕ → Bytes → List Draw
  | x, [] =>
    if x < numViscol then
      let col := max 0 (x - hscroll)
      [.rect (col + 1) row (numViscol - col) 1]
    else []
  | x, c :: s =>
    if x < numViscol then
      if c = 9 then
        let ts := (x + 4) &&& 65532
        .rect (x + 1) row (ts - x) 1 :: drawLine hscroll row ts s
      else
        let rest := drawLine hscroll row (x + 1) s
        if 0 < x + 1 - hscroll then .putchar (x + 1 - hscroll) row c :: rest else rest
    else []

/-- The positions of `lines` that `view_update` reads, in this order. -/
def viewReads (v : Viewer) : List Int :=
  if v.dirtyText then
    (List.range (min v.lines.length (numVislines - 1))).map fun i : ℕ => v.vscroll + i
  else []

/-- `lines[k]`. Outside the array, where the code reads what lies there, there is no line here: what
is drawn of a row is only said where its line is in the array. -/
def Viewer.line (v : Viewer) (k : Int) : Bytes :=
  if 0 ≤ k then ((v.lines[k.toNat]?).map (Span.text (v.data.getD []))).getD [] else []

theorem Viewer.line_of_getElem? {v : Viewer} {k : Int} {m : ℕ} {span : Span} (hm : k = m)
    (hspan : v.lines[m]? = some span) : v.line k = span.text (v.data.getD []) := by
  rw [Viewer.line, hm, if_pos (Int.natCast_nonneg m), Int.toNat_natCast, hspan]
  rfl

/-- The texts of the buttons. -/
def viewButtons : List Bytes :=
  ["Help  ", "      ", "      ", "Hex   ", "      ",
    "      ", "Search", "      ", "      ", "Quit  "].map ascii

/-- `"%2d"` of a button's number. -/
def buttonNumber (n : ℕ) : Bytes := if n < 10 then ascii " " ++ decimal n else decimal n

/-- `view_update`: what it draws, and the viewer after it. -/
def viewUpdate (v : Viewer) : List Draw × Viewer :=
  let frame := if v.dirtyFrame then [Draw.frame v.title 0 0 80 23] else []
  let text := (viewReads v).zipIdx.flatMap fun k =>
    drawLine v.hscroll (k.2 + 1) 0 (v.line k.1)
  let buttons := if v.dirtyButtons then
      viewButtons.zipIdx.flatMap fun b =>
        [Draw.text (8 * b.2) 23 (buttonNumber (b.2 + 1)), .text (8 * b.2 + 2) 23 b.1]
    else []
  (frame ++ text ++ buttons,
    { v with dirtyText := false, dirtyFrame := false, dirtyButtons := false })

end Visftp
