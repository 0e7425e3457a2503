import Visftp.Lib.TextLines
import Visftp.Viewer

/-!
# The lines the viewer shows

`view_memopen` pushes a span at each line end, unless nothing stands before it, and none for what
stands behind the last one. So it passes over the empty string between the carriage return and the
line feed of one line end, but it passes over an empty line as well, and it never shows a last line
that is not ended.

## Main results

* `map_text_scanSpans` — the spans are the ended lines that are not empty
* `showsLines_iff` — the contents whose lines are all shown
-/

namespace Visftp

open CString TextLines

section Scan

variable {content pre cur bs : Bytes}

/-- A span that ends where the scan stands. -/
theorem text_span (h : content = pre ++ cur ++ bs) :
    Span.text content ⟨pre.length, pre.length + cur.length - pre.length⟩ = cur := by
  rw [Span.text, h, List.append_assoc, List.drop_left, Nat.add_sub_cancel_left, List.take_left]

/-- **The spans are the ended lines that are not empty**, in their order. `cur` is the line the
scan is in, behind `pre`. -/
theorem map_text_scanSpans {after : Bool} (h : content = pre ++ cur ++ bs)
    (hafter : after = true → cur = []) :
    (scanSpans bs (pre.length + cur.length) pre.length).map (Span.text content) =
      (splitText cr lf after cur bs).1.filter (· ≠ []) := by
  induction bs generalizing pre cur after with
  | nil => rfl
  | cons b bs ih =>
    have hcontent : content = (pre ++ cur ++ [b]) ++ [] ++ bs := by simp [h]
    have hlen : pre.length + cur.length + 1 = (pre ++ cur ++ [b]).length := by
      simp [Nat.add_assoc]
    -- at a line end the scan goes on behind it, in a new line
    have hnext : ∀ after : Bool,
        (scanSpans bs (pre.length + cur.length + 1) (pre.length + cur.length + 1)).map
          (Span.text content) = (splitText cr lf after [] bs).1.filter (· ≠ []) := by
      intro after
      have hrec := @ih (pre ++ cur ++ [b]) [] after hcontent fun _ => rfl
      rw [List.length_nil, Nat.add_zero, ← hlen] at hrec
      exact hrec
    rw [scanSpans]
    by_cases hskip : b = lf ∧ after = true
    · obtain ⟨rfl, rfl⟩ := hskip
      obtain rfl := hafter rfl
      rw [if_pos (.inr rfl), splitText_skip, List.length_nil, Nat.add_zero,
        if_neg (Nat.lt_irrefl _)]
      exact hnext false
    by_cases hb : b = cr ∨ b = lf
    · rw [if_pos hb, splitText_eol hb hskip]
      by_cases hcur : cur = []
      · subst hcur
        rw [List.length_nil, Nat.add_zero, if_neg (Nat.lt_irrefl _)]
        simpa using hnext (decide (b = cr))
      · have hpos := List.length_pos_of_ne_nil hcur
        rw [if_pos (by omega), List.map_cons, text_span h, hnext (decide (b = cr))]
        simp [hcur]
    · have hb' := not_or.mp hb
      rw [if_neg hb, splitText_push hb'.1 hb'.2]
      have hrec := @ih pre (cur ++ [b]) false (by simp [h]) (by simp)
      rw [List.length_append, List.length_singleton, ← Nat.add_assoc] at hrec
      exact hrec

/-- A span ends where a line end of the contents stands. -/
theorem span_le_of_mem_scanSpans {ptr start : ℕ} {s : Span} (hle : start ≤ ptr)
    (hs : s ∈ scanSpans bs ptr start) : s.start + s.len ≤ ptr + bs.length := by
  induction bs generalizing ptr start with
  | nil => simp [scanSpans] at hs
  | cons b bs ih =>
    rw [scanSpans] at hs
    rw [List.length_cons]
    have hnext : s ∈ scanSpans bs (ptr + 1) (ptr + 1) → s.start + s.len ≤ ptr + 1 + bs.length :=
      fun h => ih le_rfl h
    split_ifs at hs with hb hlt
    · rcases List.mem_cons.mp hs with rfl | hs
      · dsimp only
        omega
      · have := hnext hs
        omega
    · have := hnext hs
      omega
    · have := ih (hle.trans (Nat.le_succ ptr)) hs
      omega

end Scan

/-- The lines the viewer has for a content are the lines of the content, one span for each, and
every span lies inside it and holds no line end. -/
def ShowsLines (name : Bytes) (start : Option Bytes) (v : Viewer) : Prop :=
  let content := start.getD []
  let spans := (viewMemopen name start v).lines
  spans.map (Span.text content) = textLines cr lf content ∧
    ∀ s ∈ spans, s.start + s.len ≤ content.length ∧ cr ∉ s.text content ∧ lf ∉ s.text content

theorem lines_viewMemopen (name : Bytes) (start : Option Bytes) (v : Viewer) :
    (viewMemopen name start v).lines.map (Span.text (start.getD [])) =
      (ended cr lf (start.getD [])).filter (· ≠ []) := by
  have hcontent : start.getD [] = [] ++ [] ++ start.getD [] := rfl
  exact map_text_scanSpans hcontent fun _ => rfl

/-- Every span lies inside the contents and holds no line end, whatever they are. -/
theorem span_viewMemopen {name : Bytes} {start : Option Bytes} {v : Viewer} {s : Span}
    (hs : s ∈ (viewMemopen name start v).lines) :
    s.start + s.len ≤ (start.getD []).length ∧
      cr ∉ s.text (start.getD []) ∧ lf ∉ s.text (start.getD []) := by
  refine ⟨by simpa using span_le_of_mem_scanSpans le_rfl hs, ?_⟩
  have hmem : s.text (start.getD []) ∈ (ended cr lf (start.getD [])).filter (· ≠ []) := by
    rw [← lines_viewMemopen name start v]
    exact List.mem_map_of_mem hs
  have hline : s.text (start.getD []) ∈ textLines cr lf (start.getD []) :=
    List.mem_append_left _ (List.mem_of_mem_filter hmem)
  exact eol_notMem_textLines hline

/-- **The contents that are shown line by line**: no line is empty, and the last one is ended. -/
theorem showsLines_iff (name : Bytes) (start : Option Bytes) (v : Viewer) :
    ShowsLines name start v ↔
      [] ∉ textLines cr lf (start.getD []) ∧
        ∀ b ∈ (start.getD []).getLast?, b = cr ∨ b = lf := by
  rw [← filter_eq_textLines_iff, ← lines_viewMemopen name start v]
  exact and_iff_left fun s hs => span_viewMemopen hs

/-- An empty line and a last line without an end: two of three lines are not shown. -/
theorem not_showsLines_blank : ¬ShowsLines (ascii "f") (some (ascii "a\n\nb")) Viewer.init :=
  fun h => absurd h.1 (by decide)

end Visftp
