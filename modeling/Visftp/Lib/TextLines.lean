import Mathlib.Data.List.Basic
import Mathlib.Data.List.Infix

/-!
# The lines of a text with three kinds of line ends

A line ends in `lf`, in `cr`, or in the two of them in this order, in any mixture. `splitText`
reads a text behind an unfinished line and gives the lines that end in it, without their ends, and
the unfinished line that is left. It has to know whether the character before was a `cr`, because
the `lf` behind one ends no line of its own.

`textLines` are the lines as a reader counts them: empty lines are lines, and what stands behind
the last line end is one if there is anything.

## Main results

* `textLines_append_lf`, `textLines_append_crlf`, `textLines_append_cr`, `textLines_of_notMem` —
  what `textLines` does with a line and its end
* `eol_notMem_textLines` — a line holds no line end
* `rest_eq_nil_iff` — nothing is left behind the last line end of a text that ends in one
* `filter_eq_textLines_iff` — leaving out the empty and the unfinished lines
-/

namespace TextLines

variable {α : Type*} [DecidableEq α] {cr lf : α}

/-- The lines that end in a text when the unfinished line before it is `cur`, and the unfinished
line behind it. `afterCr` says that the character before the text is a `cr`. -/
def splitText (cr lf : α) : Bool → List α → List α → List (List α) × List α
  | _, cur, [] => ([], cur)
  | afterCr, cur, x :: xs =>
    if x = lf ∧ afterCr then splitText cr lf false cur xs
    else if x = cr ∨ x = lf then
      (cur :: (splitText cr lf (x = cr) [] xs).1, (splitText cr lf (x = cr) [] xs).2)
    else splitText cr lf false (cur ++ [x]) xs

/-- The lines of a text that are ended. -/
def ended (cr lf : α) (xs : List α) : List (List α) := (splitText cr lf false [] xs).1

/-- What stands behind the last line end of a text. -/
def rest (cr lf : α) (xs : List α) : List α := (splitText cr lf false [] xs).2

/-- The lines of a text. -/
def textLines (cr lf : α) (xs : List α) : List (List α) :=
  ended cr lf xs ++ if rest cr lf xs = [] then [] else [rest cr lf xs]

section Split

variable {after : Bool} {cur xs : List α} {x : α}

@[simp] theorem splitText_nil : splitText cr lf after cur [] = ([], cur) := rfl

theorem splitText_skip : splitText cr lf true cur (lf :: xs) = splitText cr lf false cur xs := by
  simp [splitText]

theorem splitText_eol (hx : x = cr ∨ x = lf) (h : ¬(x = lf ∧ after = true)) :
    splitText cr lf after cur (x :: xs) =
      (cur :: (splitText cr lf (x = cr) [] xs).1, (splitText cr lf (x = cr) [] xs).2) := by
  rw [splitText, if_neg h, if_pos hx]

theorem splitText_push (hcr : x ≠ cr) (hlf : x ≠ lf) :
    splitText cr lf after cur (x :: xs) = splitText cr lf false (cur ++ [x]) xs := by
  simp [splitText, hcr, hlf]

/-- A text that does not start with `lf` is read alike behind a `cr` and behind anything else. -/
theorem splitText_after (h : xs.head? ≠ some lf) :
    splitText cr lf after cur xs = splitText cr lf false cur xs := by
  cases xs with
  | nil => rfl
  | cons x xs =>
    have hx : x ≠ lf := by simpa using h
    simp [splitText, hx]

/-- Without a line end the text is added to the unfinished line. -/
theorem splitText_append_of_notMem (ys : List α) (hcr : cr ∉ xs) (hlf : lf ∉ xs) :
    splitText cr lf false cur (xs ++ ys) = splitText cr lf false (cur ++ xs) ys := by
  induction xs generalizing cur with
  | nil => simp
  | cons x xs ih =>
    rw [List.mem_cons, not_or] at hcr hlf
    rw [List.cons_append, splitText_push (Ne.symm hcr.1) (Ne.symm hlf.1), ih hcr.2 hlf.2]
    simp

/-- A line holds no line end, if the unfinished line did not. -/
theorem eol_notMem_splitText (hcr : cr ∉ cur) (hlf : lf ∉ cur) :
    (∀ l ∈ (splitText cr lf after cur xs).1, cr ∉ l ∧ lf ∉ l) ∧
      cr ∉ (splitText cr lf after cur xs).2 ∧ lf ∉ (splitText cr lf after cur xs).2 := by
  induction xs generalizing after cur with
  | nil => exact ⟨by simp, hcr, hlf⟩
  | cons x xs ih =>
    by_cases hskip : x = lf ∧ after = true
    · obtain ⟨rfl, rfl⟩ := hskip
      rw [splitText_skip]
      exact ih hcr hlf
    by_cases hx : x = cr ∨ x = lf
    · rw [splitText_eol hx hskip]
      have hempty : cr ∉ ([] : List α) ∧ lf ∉ ([] : List α) := by simp
      obtain ⟨hls, hr⟩ := @ih (decide (x = cr)) [] hempty.1 hempty.2
      refine ⟨fun l hl => ?_, hr⟩
      rcases List.mem_cons.mp hl with rfl | hl
      · exact ⟨hcr, hlf⟩
      · exact hls l hl
    · rw [not_or] at hx
      rw [splitText_push hx.1 hx.2]
      have hnew : ∀ y ∈ [x], y ≠ cr ∧ y ≠ lf := by simpa using hx
      refine ih (fun h => ?_) (fun h => ?_)
      · rcases List.mem_append.mp h with h | h
        · exact hcr h
        · exact (hnew _ h).1 rfl
      · rcases List.mem_append.mp h with h | h
        · exact hlf h
        · exact (hnew _ h).2 rfl

/-- Nothing is left of a text that ends in a line end, and of one that is empty behind no
unfinished line. -/
theorem splitText_snd_eq_nil_iff (hcur : after = true → cur = []) :
    (splitText cr lf after cur xs).2 = [] ↔
      if xs = [] then cur = [] else ∀ b ∈ xs.getLast?, b = cr ∨ b = lf := by
  induction xs generalizing after cur with
  | nil => simp
  | cons x xs ih =>
    have hlast : (∀ b ∈ (x :: xs).getLast?, b = cr ∨ b = lf) ↔
        if xs = [] then x = cr ∨ x = lf else ∀ b ∈ xs.getLast?, b = cr ∨ b = lf := by
      cases xs <;> simp
    rw [if_neg (List.cons_ne_nil x xs), hlast]
    by_cases hskip : x = lf ∧ after = true
    · obtain ⟨rfl, rfl⟩ := hskip
      obtain rfl := hcur rfl
      rw [splitText_skip, ih (by simp)]
      simp
    by_cases hx : x = cr ∨ x = lf
    · rw [splitText_eol hx hskip, ih (by simp)]
      simp [hx]
    · have hx' := not_or.mp hx
      rw [splitText_push hx'.1 hx'.2, ih (by simp)]
      simp [hx]

end Split

section Lines

variable {l xs : List α}

theorem textLines_of_splitText {ys : List α} (h : splitText cr lf false [] ys =
    (l :: (splitText cr lf false [] xs).1, (splitText cr lf false [] xs).2)) :
    textLines cr lf ys = l :: textLines cr lf xs := by
  have hended : ended cr lf ys = l :: ended cr lf xs := by simp only [ended, h]
  have hrest : rest cr lf ys = rest cr lf xs := by simp only [rest, h]
  rw [textLines, textLines, hended, hrest, List.cons_append]

/-- One line at the front of a text, with the text behind its end. -/
theorem textLines_append_eol {x : α} (hcr : cr ∉ l) (hlf : lf ∉ l) (hx : x = cr ∨ x = lf)
    (h : x = cr → xs.head? ≠ some lf) :
    textLines cr lf (l ++ x :: xs) = l :: textLines cr lf xs := by
  apply textLines_of_splitText
  rw [splitText_append_of_notMem _ hcr hlf, splitText_eol hx (by simp), List.nil_append]
  by_cases hxcr : x = cr
  · rw [splitText_after (h hxcr)]
  · simp [hxcr]

/-- A line that ends in `lf`. -/
theorem textLines_append_lf (hne : lf ≠ cr) (hcr : cr ∉ l) (hlf : lf ∉ l) :
    textLines cr lf (l ++ lf :: xs) = l :: textLines cr lf xs :=
  textLines_append_eol hcr hlf (.inr rfl) fun h => absurd h hne

/-- A line that ends in `cr` alone. -/
theorem textLines_append_cr (hcr : cr ∉ l) (hlf : lf ∉ l) (h : xs.head? ≠ some lf) :
    textLines cr lf (l ++ cr :: xs) = l :: textLines cr lf xs :=
  textLines_append_eol hcr hlf (.inl rfl) fun _ => h

/-- A line that ends in both. -/
theorem textLines_append_crlf (hne : cr ≠ lf) (hcr : cr ∉ l) (hlf : lf ∉ l) :
    textLines cr lf (l ++ cr :: lf :: xs) = l :: textLines cr lf xs := by
  apply textLines_of_splitText
  rw [splitText_append_of_notMem _ hcr hlf, splitText_eol (.inl rfl) (by simp [hne])]
  simp [splitText_skip]

/-- A line that is not ended. -/
theorem textLines_of_notMem (hcr : cr ∉ l) (hlf : lf ∉ l) :
    textLines cr lf l = if l = [] then [] else [l] := by
  have hsplit : splitText cr lf false [] l = ([], l) := by
    have happend : splitText cr lf false [] (l ++ []) = splitText cr lf false ([] ++ l) [] :=
      splitText_append_of_notMem [] hcr hlf
    simpa using happend
  simp [textLines, ended, rest, hsplit]

/-- A line holds no line end. -/
theorem eol_notMem_textLines (h : l ∈ textLines cr lf xs) : cr ∉ l ∧ lf ∉ l := by
  have hempty : cr ∉ ([] : List α) ∧ lf ∉ ([] : List α) := by simp
  obtain ⟨hls, hr⟩ : (∀ l ∈ ended cr lf xs, cr ∉ l ∧ lf ∉ l) ∧ cr ∉ rest cr lf xs ∧
      lf ∉ rest cr lf xs := eol_notMem_splitText hempty.1 hempty.2
  rcases List.mem_append.mp h with h | h
  · exact hls l h
  · split_ifs at h
    · simp at h
    · rw [List.mem_singleton.mp h]
      exact hr

theorem rest_eq_nil_iff : rest cr lf xs = [] ↔ ∀ b ∈ xs.getLast?, b = cr ∨ b = lf := by
  rw [rest, splitText_snd_eq_nil_iff (by simp)]
  cases xs <;> simp

theorem nil_mem_textLines_iff : [] ∈ textLines cr lf xs ↔ [] ∈ ended cr lf xs := by
  rw [textLines, List.mem_append]
  refine or_iff_left fun h => ?_
  split_ifs at h with hr
  · simp at h
  · exact hr (List.mem_singleton.mp h).symm

/-- **The lines that are neither empty nor unfinished are all lines** when no line is, and only
then. -/
theorem filter_eq_textLines_iff :
    (ended cr lf xs).filter (· ≠ []) = textLines cr lf xs ↔
      [] ∉ textLines cr lf xs ∧ ∀ b ∈ xs.getLast?, b = cr ∨ b = lf := by
  rw [nil_mem_textLines_iff, ← rest_eq_nil_iff, textLines]
  constructor
  · intro h
    have hlen := congrArg List.length h
    rw [List.length_append] at hlen
    have hle := List.length_filter_le (fun l => decide (l ≠ [])) (ended cr lf xs)
    have hrest : rest cr lf xs = [] := by
      by_contra hr
      rw [if_neg hr, List.length_singleton] at hlen
      omega
    refine ⟨fun hmem => ?_, hrest⟩
    rw [if_pos hrest, List.append_nil, List.filter_eq_self] at h
    simpa using h [] hmem
  · rintro ⟨hmem, hr⟩
    rw [if_pos hr, List.append_nil, List.filter_eq_self]
    intro l hl
    have hne : l ≠ [] := ne_of_mem_of_not_mem hl hmem
    simpa using hne

end Lines

end TextLines
