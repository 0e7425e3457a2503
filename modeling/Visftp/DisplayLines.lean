import Visftp.Display
import Visftp.FixedBuffers

/-!
# The lines around the lists

What `updateui` leaves in the first row and in the last two, cell by cell. The first row has two
halves, one for the server and one for the transfer; a text that is too long for its half goes on
in the other, and from there in the first row of the lists. While the texts fit, nothing but these
rows is stored to.

## Main definitions

* `statusWord`, `buttonWord` — what the rows show
* `Display.Fits` — the texts of the first row are not too long

## Main results

* `drawButtons_framebuf`, `drawStatus_framebuf`, `drawXfer_framebuf`, `drawLines_framebuf`
-/

namespace Visftp

open CString

variable {i j : Int}

/-! ### Buttons -/

/-- What a button shows, `u` columns from where it begins. -/
def buttonCell (b : ℕ) (text : Bytes) (u : ℕ) : Option UInt16 :=
  if u < 2 then ((cstr (buttonNumber (b + 1)))[u]?).map fun c =>
    colorAttr .white .black ||| c.toUInt16
  else ((cstr text)[u - 2]?).map fun c => colorAttr .black .cyan ||| c.toUInt16

/-- What a line of buttons shows in a column, `none` where it leaves the screen as it was. -/
def buttonWord (bntext : List Bytes) (i : Int) : Option UInt16 :=
  (bntext[(i / 8).toNat]?).bind fun text => buttonCell (i / 8).toNat text (i % 8).toNat

theorem length_buttonNumber : ∀ b < 10, (cstr (buttonNumber (b + 1))).length = 2 := by decide

/-- One button. -/
def drawButton (t : Tg) (b : Bytes × ℕ) : Tg :=
  let t := tgBgcolor Color.black.code (tgFgcolor Color.white.code t)
  let t := tgText (8 * b.2) 23 (buttonNumber (b.2 + 1)) t
  let t := tgBgcolor Color.cyan.code (tgFgcolor Color.black.code t)
  tgText (8 * b.2 + 2) 23 b.1 t

theorem drawButtons_eq (bntext : List Bytes) (t : Tg) :
    drawButtons bntext t = bntext.zipIdx.foldl drawButton t := rfl

theorem setup_drawButtons (bntext : List Bytes) (t : Tg) :
    (drawButtons bntext t).setup = t.setup := by
  rw [drawButtons_eq]
  induction bntext.zipIdx generalizing t with
  | nil => rfl
  | cons b bs ih => exact ih _

/-- The screen after one button. -/
theorem drawButton_framebuf (t : Tg) {b : ℕ} (hb : b < 10) {text : Bytes}
    (htext : (cstr text).length ≤ 6) (hi : 0 ≤ i ∧ i < 80) :
    (drawButton t (text, b)).framebuf (cellAt i j) =
      (if j = 23 ∧ (i / 8).toNat = b then buttonCell b text (i % 8).toNat
        else none).getD (t.framebuf (cellAt i j)) := by
  have hnum := length_buttonNumber b hb
  rw [drawButton]
  dsimp only
  rw [tgText_cell _ (by omega) (by omega) hi, framebuf_tgBgcolor, framebuf_tgFgcolor,
    tgText_cell _ (by omega) (by omega) hi, framebuf_tgBgcolor, framebuf_tgFgcolor,
    attr_tgBgcolor _ .black _ (fgcol_tgFgcolor _ _),
    attr_tgBgcolor _ .white _ (fgcol_tgFgcolor _ _)]
  by_cases hin : j = 23 ∧ (i / 8).toNat = b
  · rw [if_pos hin, buttonCell]
    by_cases hu : (i % 8).toNat < 2
    · rw [if_pos hu, if_neg (show ¬(j = 23 ∧ 8 * (b : Int) + 2 ≤ i) by omega),
        if_pos (show j = 23 ∧ 8 * (b : Int) ≤ i by omega),
        show (i - 8 * (b : Int)).toNat = (i % 8).toNat by omega]
      rfl
    · rw [if_neg hu, if_pos (show j = 23 ∧ 8 * (b : Int) + 2 ≤ i by omega),
        if_pos (show j = 23 ∧ 8 * (b : Int) ≤ i by omega),
        List.getElem?_eq_none (l := cstr (buttonNumber (b + 1))) (by omega),
        show (i - (8 * (b : Int) + 2)).toNat = (i % 8).toNat - 2 by omega]
      rfl
  · have hnum' : (if j = 23 ∧ 8 * (b : Int) ≤ i then
        (cstr (buttonNumber (b + 1)))[(i - 8 * (b : Int)).toNat]? else none) = none := by
      split
      · exact List.getElem?_eq_none (by omega)
      · rfl
    have htext' : (if j = 23 ∧ 8 * (b : Int) + 2 ≤ i then
        (cstr text)[(i - (8 * (b : Int) + 2)).toNat]? else none) = none := by
      split
      · exact List.getElem?_eq_none (by omega)
      · rfl
    rw [if_neg hin, hnum', htext']
    rfl

/-- The screen after a line of buttons. -/
theorem drawButtons_framebuf (t : Tg) {bntext : List Bytes} (hlen : bntext.length ≤ 10)
    (htext : ∀ text ∈ bntext, (cstr text).length ≤ 6) (hi : 0 ≤ i ∧ i < 80) :
    (drawButtons bntext t).framebuf (cellAt i j) =
      (if j = 23 then buttonWord bntext i else none).getD (t.framebuf (cellAt i j)) := by
  rw [drawButtons_eq]
  induction bntext using List.reverseRecOn with
  | nil => simp [buttonWord]
  | append_singleton l text ih =>
    rw [List.length_append, List.length_singleton] at hlen
    rw [List.zipIdx_append, List.foldl_append, List.zipIdx_singleton, List.foldl_cons,
      List.foldl_nil, drawButton_framebuf _ (by omega) (htext text (by simp)) hi,
      ih (by omega) fun u hu => htext u (List.mem_append_left _ hu), Nat.zero_add, buttonWord,
      buttonWord]
    by_cases hj : j = 23
    swap
    · simp [hj]
    rcases lt_trichotomy (i / 8).toNat l.length with hlt | heq | hgt
    · rw [if_neg (by omega), List.getElem?_append_left hlt]
      rfl
    · rw [if_pos ⟨hj, heq⟩, if_pos hj, if_pos hj, heq, List.getElem?_append_right le_rfl,
        Nat.sub_self, List.getElem?_cons_zero, List.getElem?_eq_none le_rfl]
      rfl
    · rw [if_neg (by omega), List.getElem?_eq_none (l := l) (by omega),
        List.getElem?_eq_none (l := l ++ [text]) (by simp; omega)]
      rfl

/-- The texts of `updateui` and of `view_update` fill their buttons. -/
theorem length_uiButtons (focus : Pane) :
    (uiButtons focus).length = 10 ∧ ∀ text ∈ uiButtons focus, (cstr text).length = 6 := by
  cases focus <;> decide

theorem length_viewButtons :
    viewButtons.length = 10 ∧ ∀ text ∈ viewButtons, (cstr text).length = 6 := by decide

/-- Full buttons leave nothing of what was there. -/
theorem isSome_buttonWord {bntext : List Bytes} (hlen : bntext.length = 10)
    (htext : ∀ text ∈ bntext, (cstr text).length = 6) (hi : 0 ≤ i ∧ i < 80) :
    (buttonWord bntext i).isSome = true := by
  have hb : (i / 8).toNat < bntext.length := by omega
  have hnum := length_buttonNumber (i / 8).toNat (by omega)
  have hsix := htext _ (List.getElem_mem hb)
  rw [buttonWord, List.getElem?_eq_getElem hb, Option.bind_some, buttonCell]
  split
  · rw [Option.isSome_map, List.getElem?_eq_getElem (by omega)]
    rfl
  · rw [Option.isSome_map, List.getElem?_eq_getElem (by omega)]
    rfl

/-! ### The first row -/

/-- What the first row shows of the server. -/
def statusWord (status : Status) (optHost : Bytes) (i : Int) : UInt16 :=
  colorAttr (if status ≠ .disc then .green else .red) .black |||
    (((cstr (statusText status optHost))[i.toNat]?).map UInt8.toUInt16).getD 32

namespace Display

/-- **The texts of the first row fit**: they do not go on in the second. -/
structure Fits (d : Display) : Prop where
  host : (cstr d.optHost).length ≤ 75
  name : ∀ x ∈ d.curXfer, (cstr (d.ui.world.xfers x).rname).length ≤ 39

end Display

theorem length_cstr_le (s : Bytes) : (cstr s).length ≤ s.length :=
  (List.takeWhile_prefix _).length_le

theorem length_statusText (status : Status) {optHost : Bytes} (h : (cstr optHost).length ≤ 75) :
    (cstr (statusText status optHost)).length ≤ 80 := by
  refine (length_cstr_le _).trans ?_
  rw [statusText, List.length_append]
  have hsrv : (ascii "Srv: ").length = 5 := rfl
  have hdash : (ascii "-").length = 1 := rfl
  split <;> omega

/-- A number of at most three digits takes up five columns. -/
theorem length_progressText (long : ℕ) (x : XferData) :
    (cstr (progressText long x)).length ≤ 5 := by
  refine (length_cstr_le _).trans ?_
  rw [progressText]
  split
  · decide
  dsimp only
  generalize (if ((100 * x.count).bmod (2 ^ long)).tdiv x.total < 0 then (0 : Int)
    else ((100 * x.count).bmod (2 ^ long)).tdiv x.total) = p
  have hp : (if 100 < p then 100 else p).toNat < 256 := by split <;> omega
  have hdigits := length_decimal_le hp
  have hone : (ascii " ").length = 1 := rfl
  have hsign : (ascii "%").length = 1 := rfl
  rw [List.length_append, List.length_append, List.length_append, List.length_replicate]
  omega

/-- A text of the first row that fits changes no other row. -/
theorem tgText_other {x : Int} {s : Bytes} (t : Tg) (hx : 0 ≤ x) (hlen : x + (cstr s).length ≤ 80)
    (hi : 0 ≤ i ∧ i < 80) (hj : j ≠ 0) :
    (tgText x 0 s t).framebuf (cellAt i j) = t.framebuf (cellAt i j) := by
  rw [tgText_cell _ hx hlen hi, if_neg (by omega)]
  rfl

namespace Display

variable {d : Display}

/-- The half of the server. -/
theorem drawStatus_framebuf (hf : d.Fits) (hbg : d.tg.bgchar = 32) (hi : 0 ≤ i ∧ i < 40) :
    d.drawStatus.tg.framebuf (cellAt i 0) =
      if d.statusDue then statusWord d.ui.world.ftp.status d.optHost i
      else d.tg.framebuf (cellAt i 0) := by
  have hlen := length_statusText d.ui.world.ftp.status hf.host
  rw [drawStatus]
  split
  · show (tgText 0 0 _ _).framebuf _ = _
    rw [tgText_cell _ le_rfl (by omega) (by omega),
      tgRect_framebuf _ none false (by omega) (by omega) (by omega), attr_tgRect, rectWord_plain,
      bgchar_tgBgcolor, bgchar_tgFgcolor, hbg, statusWord,
      attr_tgBgcolor _ (if d.ui.world.ftp.status ≠ .disc then .green else .red) _
        (fgcol_tgFgcolor _ _), if_pos (show (0 : Int) = 0 ∧ 0 ≤ i by omega), Int.sub_zero,
      if_pos (show ((0 : Int) ≤ i ∧ i < 0 + 40) ∧ (0 : Int) ≤ 0 ∧ (0 : Int) < 0 + 1 by omega)]
    cases (cstr (statusText d.ui.world.ftp.status d.optHost))[i.toNat]? <;> rfl
  · rfl

theorem drawStatus_other (hf : d.Fits) (hi : 0 ≤ i ∧ i < 80) (hj : j ≠ 0) :
    d.drawStatus.tg.framebuf (cellAt i j) = d.tg.framebuf (cellAt i j) := by
  have hlen := length_statusText d.ui.world.ftp.status hf.host
  rw [drawStatus]
  split
  · show (tgText 0 0 _ _).framebuf _ = _
    rw [tgText_other _ le_rfl (by omega) hi hj,
      tgRect_framebuf _ none false (by omega) (by omega) hi, if_neg (by omega)]
    rfl
  · rfl

/-- The other half is for the transfer, and this part of `updateui` stays there. -/
theorem drawXfer_other (hf : d.Fits) (hi : 0 ≤ i ∧ i < 80) (hj : j ≠ 0 ∨ i < 40) :
    d.drawXfer.tg.framebuf (cellAt i j) = d.tg.framebuf (cellAt i j) := by
  rw [drawXfer, draw]
  dsimp only
  cases hx : d.curXfer with
  | some x =>
    have hname := hf.name x hx
    have hprog := length_progressText 32 (d.ui.world.xfers x).toXferData
    dsimp only
    rw [tgText_cell _ (by omega) (by omega) hi, tgText_cell _ (by omega) ?_ hi, if_neg (by omega),
      if_neg (by omega)]
    · rfl
    · have hlen := length_cstr_le
        (tgGchar (decide ((d.ui.world.xfers x).op = .retr)) :: cstr (d.ui.world.xfers x).rname)
      rw [List.length_cons] at hlen
      omega
  | none =>
    dsimp only
    split
    · rw [tgRect_framebuf _ none false (by omega) (by omega) hi, if_neg (by omega)]
      rfl
    · rfl

theorem setup_drawLines : d.drawLines.tg.setup = d.tg.setup := by
  rw [drawLines]
  show (if d.dirty.buttons then drawButtons _ _ else _ : Tg).setup = _
  split
  · rw [setup_drawButtons]
    split <;> rfl
  · split <;> rfl

/-- The last two lines. -/
theorem drawLines_framebuf (hbg : d.tg.bgchar = 32) (hi : 0 ≤ i ∧ i < 80) :
    d.drawLines.tg.framebuf (cellAt i j) =
      if j = 22 ∧ d.dirty.conline then colorAttr .white .black ||| 32
      else if j = 23 ∧ d.dirty.buttons then (buttonWord (uiButtons d.ui.focus) i).getD 0
      else d.tg.framebuf (cellAt i j) := by
  obtain ⟨hlen, hsix⟩ := length_uiButtons d.ui.focus
  have hline : (if d.dirty.conline then tgRect none 0 22 80 1 false
      (tgFgcolor Color.white.code (tgBgcolor Color.black.code d.tg)) else d.tg).framebuf
        (cellAt i j) = if j = 22 ∧ d.dirty.conline then colorAttr .white .black ||| 32
          else d.tg.framebuf (cellAt i j) := by
    by_cases hd : d.dirty.conline = true
    · rw [if_pos hd, tgRect_framebuf _ none false (by omega) (by omega) hi, rectWord_plain,
        attr_tgFgcolor _ _ .black (bgcol_tgBgcolor _ _), bgchar_tgFgcolor, bgchar_tgBgcolor, hbg]
      by_cases hj : j = 22
      · rw [if_pos (by omega), if_pos ⟨hj, hd⟩]
        rfl
      · rw [if_neg (by omega), if_neg (by tauto)]
        rfl
    · rw [if_neg hd, if_neg (by tauto)]
  rw [drawLines]
  show (if d.dirty.buttons then drawButtons _ _ else _ : Tg).framebuf _ = _
  by_cases hd : d.dirty.buttons = true
  · rw [if_pos hd, drawButtons_framebuf _ hlen.le (fun text h => (hsix text h).le) hi, hline]
    by_cases hj : j = 23
    · obtain ⟨word, hword⟩ := Option.isSome_iff_exists.mp (isSome_buttonWord hlen hsix hi)
      have h22 : ¬(j = 22 ∧ d.dirty.conline = true) := by omega
      rw [if_pos hj, if_neg h22, if_neg h22, if_pos ⟨hj, hd⟩, hword]
      rfl
    · rw [if_neg hj, if_neg (show ¬(j = 23 ∧ d.dirty.buttons = true) by tauto)]
      rfl
  · rw [if_neg hd, hline, if_neg (show ¬(j = 23 ∧ d.dirty.buttons = true) by tauto)]

end Display

end Visftp
