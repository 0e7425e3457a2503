import Mathlib.Data.List.Basic

/-!
# Buffers of a fixed size

Memory of a fixed size as a list, and the ways to write to it. A write that would go over the end
fails, so that a function that never fails never leaves its buffer.

## Main definitions

* `Buffers.store`, `Buffers.write`, `Buffers.move` — one element, a block, a block from elsewhere
* `Buffers.load` — one element
-/

namespace Buffers

variable {α : Type*} {buf buf' : List α}

/-- Read the element at `i`. -/
def load (buf : List α) (i : ℕ) : Option α := buf[i]?

/-- Write the element at `i`. -/
def store (buf : List α) (i : ℕ) (x : α) : Option (List α) :=
  if i < buf.length then some (buf.set i x) else none

/-- Write a block from `i` on. -/
def write (buf : List α) (i : ℕ) (b : List α) : Option (List α) :=
  if i + b.length ≤ buf.length then some (buf.take i ++ b ++ buf.drop (i + b.length)) else none

/-- Move a block of `n` elements; the two places may overlap. -/
def move (buf : List α) (dst src n : ℕ) : Option (List α) :=
  if src + n ≤ buf.length then write buf dst ((buf.drop src).take n) else none

/-! ### The size stays the same -/

theorem length_of_write {i : ℕ} {b : List α} (h : write buf i b = some buf') :
    buf'.length = buf.length := by
  rw [write] at h
  split at h
  · next hle =>
    rw [← Option.some.inj h]
    simp only [List.length_append, List.length_take, List.length_drop]
    omega
  · simp at h

theorem length_of_move {dst src n : ℕ} (h : move buf dst src n = some buf') :
    buf'.length = buf.length := by
  rw [move] at h
  split at h
  · exact length_of_write h
  · simp at h

/-! ### Where the parts are known -/

variable (pre post : List α)

theorem load_append (x : α) : load (pre ++ x :: post) pre.length = some x := by
  rw [load, List.getElem?_append_right (Nat.le_refl _), Nat.sub_self]
  rfl

theorem store_append (x y : α) :
    store (pre ++ x :: post) pre.length y = some (pre ++ y :: post) := by
  rw [store, if_pos (by simp)]
  rw [List.set_append_right _ _ (Nat.le_refl _), Nat.sub_self]
  rfl

theorem write_append {mid b : List α} (h : b.length = mid.length) :
    write (pre ++ (mid ++ post)) pre.length b = some (pre ++ (b ++ post)) := by
  rw [write, if_pos (by simp [h])]
  rw [List.take_left, h, ← List.append_assoc pre mid post, ← List.length_append, List.drop_left,
    List.append_assoc]

/-- A block is moved to the front, over what was there and perhaps over itself. -/
theorem move_append (mid b : List α) : move (pre ++ (mid ++ (b ++ post))) pre.length
    (pre.length + mid.length) b.length =
      some (pre ++ (b ++ (mid ++ (b ++ post)).drop b.length)) := by
  have hsrc : (pre ++ (mid ++ (b ++ post))).drop (pre.length + mid.length) = b ++ post := by
    rw [← List.length_append, ← List.append_assoc, List.drop_left]
  rw [move, if_pos (by simp; omega)]
  rw [hsrc, List.take_left]
  have hsplit := List.take_append_drop b.length (mid ++ (b ++ post))
  conv_lhs => rw [← hsplit]
  refine write_append _ _ ?_
  rw [List.length_take]
  simp
  omega

end Buffers
