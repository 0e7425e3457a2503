import Visftp.DisplayLines
import Visftp.ViewerText

/-!
# The viewer on the screen

`view_update` as stores to the screen. In the text area a cell gets what `Visftp.ViewerText` says is
painted there. The blanks of a tab in the last two columns reach beyond the right border, as far as
the left border of the next row; nothing is stored beyond that.

## Main definitions

* `Draw.InRow` — what is drawn of a line

## Main results

* `viewPaint_text` — the text area after `view_update`
* `viewPaint_outside` — nothing is stored outside of the first 24 rows
-/

namespace Visftp

open CString

variable {i j k row : Int} {t : Tg}

/-! ### What is drawn of a line -/

/-- Blanks and characters of one row, from its second column on. Blanks may reach the first column
of the next row. -/
def Draw.InRow (row : Int) : Draw → Prop
  | .rect x y width height => y = row ∧ height = 1 ∧ 1 ≤ x ∧ x + width ≤ 81
  | .putchar x y _ => y = row ∧ 1 ≤ x ∧ x ≤ 78
  | _ => False

theorem inRow_drawLine {hscroll : Int} (hh : 0 ≤ hscroll) (x : ℕ) (s : Bytes) :
    ∀ d ∈ drawLine hscroll row x s, d.InRow row := by
  have h78 : numViscol = 78 := rfl
  induction s generalizing x with
  | nil =>
    rw [drawLine]
    split
    · rw [List.forall_mem_singleton]
      exact ⟨rfl, rfl, by omega, by omega⟩
    · exact fun d hd => absurd hd List.not_mem_nil
  | cons c s ih =>
    rw [drawLine]
    split
    · next hx =>
      split
      · rw [List.forall_mem_cons, tabStop_eq hx]
        exact ⟨⟨rfl, rfl, by omega, by omega⟩, ih _⟩
      · split
        · rw [List.forall_mem_cons]
          exact ⟨⟨rfl, by omega, by omega⟩, ih _⟩
        · exact ih _
    · exact fun d hd => absurd hd List.not_mem_nil

theorem Draw.bgchar_paint (dr : Draw) (t : Tg) : (dr.paint t).bgchar = t.bgchar := by
  cases dr with
  | putchar x y c =>
    rw [paint, tgPutchar]
    split
    · split <;> rfl
    · split <;> rfl
  | _ => rfl

/-- The addresses from one on, up to another. -/
def addresses (first stop : Int) : Set Int := {k | first ≤ k ∧ k < stop}

theorem mem_addresses {first stop k : Int} : k ∈ addresses first stop ↔ first ≤ k ∧ k < stop :=
  Iff.rfl

/-- The addresses of a row, and the first one of the next. -/
def rowAddresses (row : Int) : Set Int := addresses (row * 80) (row * 80 + 81)

namespace Draw

variable {d : Draw}

theorem InRow.attr_paint (h : d.InRow row) : (d.paint t).attr = t.attr := by
  cases d with
  | rect x y width height => rfl
  | putchar x y c =>
    rw [paint, tgPutchar]
    split
    · split <;> rfl
    · split <;> rfl
  | frame | text => exact h.elim

theorem InRow.cached_paint (h : d.InRow row) (hc : t.Cached) : (d.paint t).Cached := by
  cases d with
  | rect x y width height => exact hc.congr rfl
  | putchar x y c => exact cached_tgPutchar hc c.toNat
  | frame | text => exact h.elim

/-- A cell of the text area after one drawing. -/
theorem InRow.paint_framebuf (h : d.InRow row) (hrow : 0 ≤ row) (hc : t.Cached)
    (hbg : t.bgchar = 32) (hi : 1 ≤ i ∧ i ≤ 78) : (d.paint t).framebuf (cellAt i j) =
      ((d.cell i j).map fun c => t.attr ||| c.toUInt16).getD (t.framebuf (cellAt i j)) := by
  cases d with
  | rect x y width height =>
    obtain ⟨rfl, rfl, hx, hwidth⟩ := h
    have hlast : Stores.last (fillStores (t.attr ||| 32) (cellAt x y) width 1) (cellAt i j) =
        if (x ≤ i ∧ i < x + width) ∧ y ≤ j ∧ j < y + 1 then some (t.attr ||| 32) else none := by
      refine Stores.last_const (by simp [fillStores]) ?_
      simp only [fillStores, List.mem_flatMap, List.mem_map, List.mem_range]
      constructor
      · rintro ⟨_, ⟨b, hb, a, ha, rfl⟩, heq⟩
        simp only [cellAt] at heq
        omega
      · intro h
        refine ⟨_, ⟨0, by decide, (i - x).toNat, by omega, rfl⟩, ?_⟩
        simp only [cellAt]
        omega
    show Stores.run (rectStores t none x y width 1 false) t.framebuf (cellAt i j) = _
    rw [Stores.run_apply, rectStores, hbg]
    simp only [labelStores, List.append_nil, Bool.false_eq_true, false_and, if_false]
    have h32 : UInt16.ofNat 32 = 32 := rfl
    rw [h32, hlast, cell]
    split <;> rfl
  | putchar x y c =>
    obtain ⟨rfl, hx, hx'⟩ := h
    rw [paint, tgPutchar_framebuf hc hrow, cell]
    by_cases heq : i = x ∧ j = y
    · rw [if_pos heq, if_pos (by rw [heq.1, heq.2]), UInt16.ofNat_uInt8ToNat]
      rfl
    · rw [if_neg heq, if_neg fun hcell => heq ((cellAt_inj (by omega) (by omega)).mp hcell)]
      rfl
  | frame | text => exact h.elim

/-- One drawing stores to nothing outside of its row. -/
theorem InRow.paint_outside (h : d.InRow row) (hrow : 0 ≤ row) (hc : t.Cached)
    (hk : k ∉ rowAddresses row) : (d.paint t).framebuf k = t.framebuf k := by
  cases d with
  | rect x y width height =>
    obtain ⟨rfl, rfl, hx, hwidth⟩ := h
    have hwithin : Stores.Within (rowAddresses y) (rectStores t none x y width 1 false) := by
      simp only [rectStores, labelStores, List.append_nil, Bool.false_eq_true, false_and, if_false]
      refine Stores.Within.flatMap fun b hb s hs => ?_
      obtain ⟨a, ha, rfl⟩ := List.mem_map.mp hs
      simp only [List.mem_range] at ha hb
      simp only [cellAt, rowAddresses, mem_addresses]
      omega
    exact hwithin.run_apply hk
  | putchar x y c =>
    obtain ⟨rfl, hx, hx'⟩ := h
    rw [paint, tgPutchar_framebuf hc hrow]
    refine if_neg ?_
    rintro rfl
    refine hk ?_
    simp only [cellAt, rowAddresses, mem_addresses]
    omega
  | frame | text => exact h.elim

end Draw

/-! ### Several drawings -/

/-- The first 24 rows. -/
def drawnAddresses : Set Int := addresses 0 1920

/-- **What drawings in the text area do** to the screen. -/
structure Painted (ds : List Draw) (t t' : Tg) : Prop where
  attr : t'.attr = t.attr
  bgchar : t'.bgchar = t.bgchar
  cached : t'.Cached
  cell : ∀ i j, 1 ≤ i ∧ i ≤ 78 → t'.framebuf (cellAt i j) =
    ((painted ds i j).map fun c => t.attr ||| c.toUInt16).getD (t.framebuf (cellAt i j))
  outside : ∀ k ∉ addresses 0 1840, t'.framebuf k = t.framebuf k

theorem painted_foldl {ds : List Draw} (hc : t.Cached) (hbg : t.bgchar = 32)
    (h : ∀ d ∈ ds, ∃ row, (0 ≤ row ∧ row ≤ 21) ∧ d.InRow row) :
    Painted ds t (ds.foldl (fun t d => d.paint t) t) := by
  induction ds generalizing t with
  | nil => exact ⟨rfl, rfl, hc, fun _ _ _ => rfl, fun _ _ => rfl⟩
  | cons d ds ih =>
    obtain ⟨⟨row, hrow, hd⟩, hds⟩ := List.forall_mem_cons.mp h
    have hbg' : (d.paint t).bgchar = t.bgchar := d.bgchar_paint t
    have hrest := ih (hd.cached_paint hc) (hbg'.trans hbg) hds
    refine ⟨hrest.attr.trans hd.attr_paint, hrest.bgchar.trans hbg', hrest.cached,
      fun i j hi => ?_, fun k hk => ?_⟩
    · rw [List.foldl_cons, hrest.cell i j hi, hd.paint_framebuf hrow.1 hc hbg hi, hd.attr_paint,
        painted_cons]
      cases painted ds i j <;> rfl
    · rw [List.foldl_cons, hrest.outside k hk]
      refine hd.paint_outside hrow.1 hc fun hmem => hk ?_
      rw [rowAddresses, mem_addresses] at hmem
      rw [mem_addresses]
      omega

theorem inRow_viewText {v : Viewer} (hh : 0 ≤ v.hscroll) :
    ∀ d ∈ viewText v, ∃ row, (0 ≤ row ∧ row ≤ 21) ∧ d.InRow row := by
  intro d hd
  obtain ⟨⟨line, n⟩, hn, hd⟩ := List.mem_flatMap.mp hd
  have hlen : (viewReads v).length ≤ 21 := by
    rw [viewReads]
    split
    · rw [List.length_map, List.length_range]
      exact min_le_right _ _
    · exact Nat.zero_le _
  have hlt : n < (viewReads v).length := (List.mem_zipIdx' hn).1
  exact ⟨n + 1, by omega, inRow_drawLine hh 0 _ d hd⟩

/-- A row of the text area is painted by its line. -/
theorem painted_viewText {v : Viewer} (hdirty : v.dirtyText = true) {k : ℕ}
    (hk : k < min v.lines.length (numVislines - 1)) (i : Int) : painted (viewText v) i (k + 1) =
      painted (drawLine v.hscroll (k + 1) 0 (v.line (v.vscroll + k))) i (k + 1) := by
  have htext : painted ([] ++ viewText v ++ []) i (k + 1) =
      (painted (drawLine v.hscroll (k + 1) 0 (v.line (v.vscroll + k))) i (k + 1)).or
        (if false = true ∧ 0 < i ∧ i ≤ numViscol then some 32 else none) :=
    painted_viewUpdate { v with dirtyFrame := false, dirtyButtons := false } hdirty hk i
  rw [List.nil_append, List.append_nil, if_neg fun h => Bool.false_ne_true h.1] at htext
  rw [htext, Option.or_none]

/-! ### The whole screen -/

/-- The frame around the text area. -/
def viewFrame (v : Viewer) (t : Tg) : Tg :=
  if v.dirtyFrame then
    (Draw.frame v.title 0 0 80 23).paint (tgBgcolor Color.blue.code (tgFgcolor Color.white.code t))
  else t

/-- The text area. -/
def viewLines (v : Viewer) (t : Tg) : Tg :=
  if v.dirtyText then
    (viewText v).foldl (fun t d => d.paint t)
      (tgBgcolor Color.blue.code (tgFgcolor Color.white.code t))
  else t

theorem viewPaint_eq (v : Viewer) (t : Tg) : viewPaint v t =
    if v.dirtyButtons then drawButtons viewButtons (viewLines v (viewFrame v t))
    else viewLines v (viewFrame v t) := rfl

/-- Within its border a rectangle shows the background. -/
theorem rectWord_inside {attr : UInt16} {bgchar : ℕ} {label : Option Bytes} {xsz ysz x y : Int}
    (hx : 0 < x ∧ x < xsz - 1) (hy : 0 < y ∧ y < ysz - 1) :
    rectWord attr bgchar label xsz ysz true x y = attr ||| UInt16.ofNat bgchar := by
  have hlabel : labelChar label xsz x y = none := if_neg (by omega)
  have hborder : borderChar xsz ysz x y = none := by
    rw [borderChar, if_neg (by omega), if_neg (by omega), if_neg (by omega)]
  rw [rectWord, hlabel, hborder, ite_self]
  rfl

variable {v : Viewer}

theorem setup_viewFrame (v : Viewer) (t : Tg) : (viewFrame v t).setup = t.setup := by
  rw [viewFrame]
  split <;> rfl

/-- The screen after the frame. -/
theorem viewFrame_framebuf (v : Viewer) (t : Tg) (hi : 0 ≤ i ∧ i < 80) :
    (viewFrame v t).framebuf (cellAt i j) =
      if v.dirtyFrame = true ∧ 0 ≤ j ∧ j < 23 then
        rectWord (colorAttr .white .blue) t.bgchar v.title 80 23 true i j
      else t.framebuf (cellAt i j) := by
  rw [viewFrame]
  split
  · next hd =>
    refine (tgRect_framebuf _ v.title true (by omega) (by decide) hi).trans ?_
    rw [attr_tgBgcolor _ .white _ (fgcol_tgFgcolor _ _), bgchar_tgBgcolor, bgchar_tgFgcolor,
      Int.sub_zero, Int.sub_zero]
    refine if_congr ?_ rfl rfl
    simp only [hd, true_and]
    omega
  · next hd => rw [if_neg fun h => hd h.1]

theorem viewLines_painted (hh : 0 ≤ v.hscroll) (hd : v.dirtyText = true) (hc : t.Cached)
    (hbg : t.bgchar = 32) :
    Painted (viewText v) (tgBgcolor Color.blue.code (tgFgcolor Color.white.code t))
      (viewLines v t) := by
  rw [viewLines, if_pos hd]
  exact painted_foldl (hc.congr rfl) hbg (inRow_viewText hh)

/-- Outside of the first 23 rows nothing is stored. -/
theorem viewLines_outside (hh : 0 ≤ v.hscroll) (hc : t.Cached) (hbg : t.bgchar = 32)
    (hk : k ∉ addresses 0 1840) : (viewLines v t).framebuf k = t.framebuf k := by
  by_cases hd : v.dirtyText = true
  · exact (viewLines_painted hh hd hc hbg).outside k hk
  · rw [viewLines, if_neg hd]

theorem cached_viewLines (hh : 0 ≤ v.hscroll) (hc : t.Cached) (hbg : t.bgchar = 32) :
    (viewLines v t).Cached ∧ (viewLines v t).bgchar = 32 := by
  by_cases hd : v.dirtyText = true
  · have hpainted := viewLines_painted hh hd hc hbg
    exact ⟨hpainted.cached, hpainted.bgchar.trans hbg⟩
  · rw [viewLines, if_neg hd]
    exact ⟨hc, hbg⟩

theorem cached_viewPaint (hh : 0 ≤ v.hscroll) (hc : t.Cached) (hbg : t.bgchar = 32) :
    (viewPaint v t).Cached ∧ (viewPaint v t).bgchar = 32 := by
  have hframe := setup_viewFrame v t
  obtain ⟨hc', hbg'⟩ := cached_viewLines hh (hc.congr hframe) ((Tg.bgchar_eq hframe).trans hbg)
  rw [viewPaint_eq]
  split
  · have hbuttons := setup_drawButtons viewButtons (viewLines v (viewFrame v t))
    exact ⟨hc'.congr hbuttons, (Tg.bgchar_eq hbuttons).trans hbg'⟩
  · exact ⟨hc', hbg'⟩

/-- The buttons are in the row below the frame. -/
theorem viewPaint_framebuf (v : Viewer) (t : Tg) (hi : 0 ≤ i ∧ i < 80) :
    (viewPaint v t).framebuf (cellAt i j) =
      if v.dirtyButtons = true ∧ j = 23 then (buttonWord viewButtons i).getD 0
      else (viewLines v (viewFrame v t)).framebuf (cellAt i j) := by
  obtain ⟨hlen, hsix⟩ := length_viewButtons
  rw [viewPaint_eq]
  split
  · next hd =>
    rw [drawButtons_framebuf _ hlen.le (fun text h => (hsix text h).le) hi]
    by_cases hj : j = 23
    · obtain ⟨word, hword⟩ := Option.isSome_iff_exists.mp (isSome_buttonWord hlen hsix hi)
      rw [if_pos hj, if_pos ⟨hd, hj⟩, hword]
      rfl
    · rw [if_neg hj, if_neg fun h => hj h.2]
      rfl
  · next hd => rw [if_neg fun h => hd h.1]

/-- **The text area after `view_update`**: a cell shows what is painted there, or the frame's
background. -/
theorem viewPaint_text (hh : 0 ≤ v.hscroll) (hd : v.dirtyText = true) (hc : t.Cached)
    (hbg : t.bgchar = 32) {k : ℕ} (hk : k < min v.lines.length (numVislines - 1))
    (hi : 1 ≤ i ∧ i ≤ 78) : (viewPaint v t).framebuf (cellAt i (k + 1)) =
      ((painted (drawLine v.hscroll (k + 1) 0 (v.line (v.vscroll + k))) i (k + 1)).map fun c =>
        colorAttr .white .blue ||| c.toUInt16).getD
        (if v.dirtyFrame then colorAttr .white .blue ||| 32
          else t.framebuf (cellAt i (k + 1))) := by
  have hk21 : k < 21 := lt_of_lt_of_le hk (min_le_right _ _)
  have hframe := setup_viewFrame v t
  have hlines := viewLines_painted hh hd (hc.congr hframe) ((Tg.bgchar_eq hframe).trans hbg)
  rw [viewPaint_framebuf v t (by omega), if_neg (by omega), hlines.cell i _ hi,
    painted_viewText hd hk, attr_tgBgcolor _ .white _ (fgcol_tgFgcolor _ _), framebuf_tgBgcolor,
    framebuf_tgFgcolor, viewFrame_framebuf v t (by omega)]
  congr 1
  by_cases hf : v.dirtyFrame = true
  · rw [if_pos ⟨hf, by omega⟩, if_pos hf, hbg, rectWord_inside (by omega) (by omega)]
    rfl
  · rw [if_neg fun h => hf h.1, if_neg hf]

/-- A view whose text is not flagged leaves the rows above the buttons as they are. -/
theorem viewPaint_clean (hd : v.dirtyText = false) (hf : v.dirtyFrame = false)
    (hi : 0 ≤ i ∧ i < 80) (hj : j < 23) :
    (viewPaint v t).framebuf (cellAt i j) = t.framebuf (cellAt i j) := by
  rw [viewPaint_framebuf v t hi, if_neg (by omega), viewLines,
    if_neg (by rw [hd]; exact Bool.false_ne_true), viewFrame,
    if_neg (by rw [hf]; exact Bool.false_ne_true)]

/-- **Nothing is stored outside** of the first 24 rows. -/
theorem viewPaint_outside (hh : 0 ≤ v.hscroll) (hc : t.Cached) (hbg : t.bgchar = 32)
    (hk : k ∉ drawnAddresses) : (viewPaint v t).framebuf k = t.framebuf k := by
  rw [drawnAddresses, mem_addresses] at hk
  have hframe := setup_viewFrame v t
  have hlines : (viewLines v (viewFrame v t)).framebuf k = t.framebuf k := by
    rw [viewLines_outside hh (hc.congr hframe) ((Tg.bgchar_eq hframe).trans hbg)
      (by rw [mem_addresses]; omega)]
    obtain ⟨i, j, hi, hi', rfl⟩ := exists_cellAt k
    rw [viewFrame_framebuf v t ⟨hi, hi'⟩, if_neg (by simp only [cellAt] at hk; omega)]
  obtain ⟨i, j, hi, hi', rfl⟩ := exists_cellAt k
  rw [viewPaint_framebuf v t ⟨hi, hi'⟩, if_neg (by simp only [cellAt] at hk; omega), hlines]

end Visftp
