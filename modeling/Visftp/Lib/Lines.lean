import Mathlib.Algebra.BigOperators.Group.List.Basic
import Mathlib.Algebra.GroupWithZero.Nat
import Mathlib.Algebra.Order.Group.Nat
import Mathlib.Data.List.Count

/-!
# Cutting a stream into lines

`splitFrom d cur xs` reads `xs` behind the unfinished line `cur` and gives the lines that the
delimiter `d` ends, without it, and the unfinished line that is left. Reading is a fold: the
unfinished line is all that one piece of a stream hands to the next (`splitFrom_append`).

## Main results

* `splitFrom_append` — reading two pieces in turn
* `length_lines` — there is one line for each delimiter
* `size_lines_add_length_rest` — nothing is lost: lines, delimiters and the rest add up
-/

namespace Lines

variable {α : Type*}

/-- The room a list of lines takes in a stream, delimiters included. -/
def size (ls : List (List α)) : ℕ := (ls.map fun l => l.length + 1).sum

@[simp] theorem size_nil : size ([] : List (List α)) = 0 := rfl

@[simp] theorem size_cons (l : List α) (ls : List (List α)) :
    size (l :: ls) = l.length + 1 + size ls := by simp [size]

@[simp] theorem size_append (ls ls' : List (List α)) : size (ls ++ ls') = size ls + size ls' := by
  simp [size]

theorem length_le_size (ls : List (List α)) : ls.length ≤ size ls := by
  induction ls with
  | nil => exact le_rfl
  | cons l ls ih =>
    rw [size_cons, List.length_cons]
    omega

variable [DecidableEq α] {d : α}

/-- The lines that end in `xs` when the unfinished line before it is `cur`, and the unfinished
line behind it. -/
def splitFrom (d : α) : List α → List α → List (List α) × List α
  | cur, [] => ([], cur)
  | cur, x :: xs =>
    if x = d then (cur :: (splitFrom d [] xs).1, (splitFrom d [] xs).2)
    else splitFrom d (cur ++ [x]) xs

/-- The complete lines of a stream. -/
def lines (d : α) (xs : List α) : List (List α) := (splitFrom d [] xs).1

/-- What stands behind the last delimiter of a stream. -/
def rest (d : α) (xs : List α) : List α := (splitFrom d [] xs).2

@[simp] theorem splitFrom_nil (cur : List α) : splitFrom d cur [] = ([], cur) := rfl

theorem splitFrom_cons_self (cur xs : List α) :
    splitFrom d cur (d :: xs) = (cur :: (splitFrom d [] xs).1, (splitFrom d [] xs).2) := by
  simp [splitFrom]

theorem splitFrom_cons_of_ne {x : α} (hx : x ≠ d) (cur xs : List α) :
    splitFrom d cur (x :: xs) = splitFrom d (cur ++ [x]) xs := by
  simp [splitFrom, hx]

theorem splitFrom_of_notMem {xs : List α} (h : d ∉ xs) (cur : List α) :
    splitFrom d cur xs = ([], cur ++ xs) := by
  induction xs generalizing cur with
  | nil => simp
  | cons x xs ih =>
    have hx : x ≠ d := fun hx => h (by simp [hx])
    have hxs : d ∉ xs := fun hxs => h (by simp [hxs])
    rw [splitFrom_cons_of_ne hx, ih hxs]
    simp

/-- Reading two pieces of a stream in turn: the unfinished line carries over. -/
theorem splitFrom_append (cur xs ys : List α) :
    splitFrom d cur (xs ++ ys) =
      ((splitFrom d cur xs).1 ++ (splitFrom d (splitFrom d cur xs).2 ys).1,
        (splitFrom d (splitFrom d cur xs).2 ys).2) := by
  induction xs generalizing cur with
  | nil => simp
  | cons x xs ih =>
    by_cases hx : x = d
    · subst hx
      simp [splitFrom_cons_self, ih]
    · simp [splitFrom_cons_of_ne hx, ih]

/-- The line that ends first in a piece, and the lines behind it. -/
theorem splitFrom_line {q : List α} (hq : d ∉ q) (cur more : List α) :
    (splitFrom d cur (q ++ d :: more)).1 = (cur ++ q) :: lines d more := by
  rw [splitFrom_append, splitFrom_of_notMem hq, splitFrom_cons_self]
  rfl

/-- The unfinished line behind a piece that holds a delimiter does not depend on the one before. -/
theorem splitFrom_snd_of_mem {xs : List α} (h : d ∈ xs) (cur cur' : List α) :
    (splitFrom d cur xs).2 = (splitFrom d cur' xs).2 := by
  induction xs generalizing cur cur' with
  | nil => simp at h
  | cons x xs ih =>
    by_cases hx : x = d
    · subst hx; simp [splitFrom_cons_self]
    · rw [splitFrom_cons_of_ne hx, splitFrom_cons_of_ne hx]
      exact ih (by simpa [Ne.symm hx] using h) _ _

/-- There is one line for each delimiter. -/
theorem length_splitFrom (cur xs : List α) : (splitFrom d cur xs).1.length = xs.count d := by
  induction xs generalizing cur with
  | nil => simp
  | cons x xs ih =>
    by_cases hx : x = d
    · subst hx; simp [splitFrom_cons_self, ih]
    · rw [splitFrom_cons_of_ne hx, ih, List.count_cons_of_ne hx]

/-- Rewriting the characters of a stream, with the delimiter kept apart from the others. -/
theorem splitFrom_map {f : α → α} (hf : ∀ x, f x = d ↔ x = d) (cur xs : List α) :
    splitFrom d (cur.map f) (xs.map f) =
      ((splitFrom d cur xs).1.map (List.map f), (splitFrom d cur xs).2.map f) := by
  induction xs generalizing cur with
  | nil => simp
  | cons x xs ih =>
    by_cases hx : x = d
    · subst hx
      have hfx : f x = x := (hf x).mpr rfl
      have := ih []
      simp only [List.map_nil] at this
      simp [hfx, splitFrom_cons_self, this]
    · have hfx : f x ≠ d := fun h => hx ((hf x).mp h)
      have := ih (cur ++ [x])
      simp only [List.map_append, List.map_cons, List.map_nil] at this
      rw [List.map_cons, splitFrom_cons_of_ne hfx, splitFrom_cons_of_ne hx, this]

theorem length_lines (xs : List α) : (lines d xs).length = xs.count d := length_splitFrom [] xs

/-- Nothing is lost: lines, their delimiters and the unfinished line add up to what was read. -/
theorem size_splitFrom (cur xs : List α) :
    size (splitFrom d cur xs).1 + (splitFrom d cur xs).2.length = cur.length + xs.length := by
  induction xs generalizing cur with
  | nil => simp
  | cons x xs ih =>
    by_cases hx : x = d
    · subst hx
      have := ih []
      simp only [splitFrom_cons_self, size_cons, List.length_nil, List.length_cons] at this ⊢
      omega
    · rw [splitFrom_cons_of_ne hx, ih]
      simp
      omega

theorem size_lines_add_length_rest (xs : List α) :
    size (lines d xs) + (rest d xs).length = xs.length := by
  rw [lines, rest, size_splitFrom, List.length_nil, Nat.zero_add]

end Lines
