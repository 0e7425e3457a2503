import Visftp.Darray

/-!
# What the sizes of dynamic arrays cost

A push doubles a full buffer, and a pop halves one of which a third is used. The sizes are that far
apart so that a push after a pop, or a pop after a push, does not move the elements again: after
either, a number of operations in proportion to the size comes first. So an operation moves four
elements on the average, whatever the order, and no more than three times what is used is ever
allocated, up to two elements. An array that the program resizes itself, as a download into memory
does for every block, is paid for by the size it is given.

The sizes of the code are `int`s, so all of this is for runs in which every buffer is below
`INT_MAX` bytes.

## Main definitions

* `DarrOp.moves`, `Darr.moved` — the bytes that `realloc` moves, in an operation and in a run
* `Darr.sizes`, `Darr.runInt` — the sizes that a run gives the buffer, and runs with `int` sizes
* `Darr.Fits` — the invariant of the sizes
* `Darr.potential` — how far the sizes are from the middle

## Main results

* `Darr.Fits.amortized` — one operation
* `darr_run_moved` — whole runs
-/

namespace Visftp

namespace DarrOp

variable {szelem : ℕ}

/-- The number of elements after an operation. -/
def count (n : ℕ) : DarrOp szelem → ℕ
  | .push _ _ => n + 1
  | .pop => n - 1
  | .clear => 0
  | .resize elem => elem

/-- The size to which an operation changes the buffer, in elements, if it does. -/
def resizes (da : Darr) : DarrOp szelem → Option ℕ
  | .push _ _ =>
    if da.maxElem ≤ da.nelem then some (if da.maxElem ≠ 0 then da.maxElem * 2 else 1) else none
  | .pop => if da.nelem ≠ 0 ∧ da.nelem ≤ da.maxElem / 3 then some (da.maxElem / 2) else none
  | .clear => some 0
  | .resize elem => some elem

/-- The bytes that `realloc` moves. -/
def moves (da : Darr) (op : DarrOp szelem) : ℕ :=
  match op.resizes da with
  | some elem => (da.buf.take (da.szelem * elem)).length
  | none => 0

/-- The elements that an operation may move, on the average: four, and for an array that is resized
by the program twice its size. -/
def allowance : DarrOp szelem → ℕ
  | .push _ _ | .pop => 4
  | .clear => 0
  | .resize elem => 2 * elem

end DarrOp

namespace Darr

variable {da da' : Darr} {szelem : ℕ}

/-- The bytes that are moved in a run. -/
def moved (da : Darr) : List (DarrOp szelem) → ℕ
  | [] => 0
  | op :: ops => op.moves da + (da.step op).elim 0 fun da => da.moved ops

/-- The sizes that a run gives the buffer, in elements. -/
def sizes (da : Darr) : List (DarrOp szelem) → List ℕ
  | [] => []
  | op :: ops => (op.resizes da).toList ++ (da.step op).elim [] fun da => da.sizes ops

/-- A size of the buffer, in elements and in bytes, is below `INT_MAX`. -/
def FitsInt (szelem elem : ℕ) : Prop := elem < 2 ^ 31 - 1 ∧ szelem * elem < 2 ^ 31 - 1

instance (szelem elem : ℕ) : Decidable (FitsInt szelem elem) :=
  inferInstanceAs (Decidable (_ ∧ _))

/-- One operation with the sizes of `darr_resize_impl`, which are `int`s: it fails as well when one
would not fit, as the product of the code then overflows. -/
def stepInt (da : Darr) (op : DarrOp szelem) : Option Darr :=
  if ∀ elem ∈ op.resizes da, FitsInt da.szelem elem then da.step op else none

/-- The operations of a run, with sizes that are `int`s. -/
def runInt (da : Darr) (ops : List (DarrOp szelem)) : Option Darr := ops.foldlM stepInt da

/-- How far an array is from being half full, with more weight when it is less. -/
def potential (da : Darr) : ℕ := (2 * da.nelem - da.maxElem) + 2 * (da.maxElem - 2 * da.nelem)

/-- The invariant of the sizes: the elements fit in the buffer, which has the size it says, and no
more than three times what is used is allocated. It does not say what the elements are, so that it
is kept by a resize to a larger size as well. -/
structure Fits (da : Darr) (szelem : ℕ) : Prop where
  szelem_eq : da.szelem = szelem
  nelem_le : da.nelem ≤ da.maxElem
  maxElem_le : da.maxElem ≤ 3 * da.nelem + 2
  bufsz_eq : da.bufsz = da.maxElem * da.szelem
  length_buf : da.buf.length = da.bufsz

theorem fits_darrAlloc (szelem : ℕ) : (darrAlloc 0 szelem).Fits szelem where
  szelem_eq := rfl
  nelem_le := le_rfl
  maxElem_le := Nat.zero_le _
  bufsz_eq := rfl
  length_buf := List.length_replicate

namespace Fits

/-- A buffer of another size, for a number of elements that it has room for. -/
theorem resized {elem n : ℕ} (h : da.Fits szelem) (hle : n ≤ elem) (hge : elem ≤ 3 * n + 2) :
    ({ darrResizeImpl elem da with nelem := n } : Darr).Fits szelem where
  szelem_eq := h.szelem_eq
  nelem_le := hle
  maxElem_le := hge
  bufsz_eq := Nat.mul_comm _ _
  length_buf := length_realloc _

/-- Another number of elements in the same buffer. -/
theorem counted {n : ℕ} (h : da.Fits szelem) (hle : n ≤ da.maxElem) (hge : da.maxElem ≤ 3 * n + 2) :
    ({ da with nelem := n } : Darr).Fits szelem where
  szelem_eq := h.szelem_eq
  nelem_le := hle
  maxElem_le := hge
  bufsz_eq := h.bufsz_eq
  length_buf := h.length_buf

/-- A buffer that has room for an item takes it, and one that is full is made larger first. -/
theorem push {item : Option Bytes} (h : da.Fits szelem)
    (hitem : ∀ bytes ∈ item, bytes.length = szelem) :
    ∃ da', darrPushImpl item da = some da' ∧ da'.Fits szelem ∧ da'.nelem = da.nelem + 1 ∧
      da'.maxElem = if da.maxElem ≤ da.nelem then
        if da.maxElem ≠ 0 then da.maxElem * 2 else 1 else da.maxElem := by
  have hle := h.nelem_le
  have hmax := h.maxElem_le
  obtain ⟨grown, hgrown, hsize, hnelem, h'⟩ : ∃ grown, (if da.maxElem ≤ da.nelem then
      { darrResizeImpl (if da.maxElem ≠ 0 then da.maxElem * 2 else 1) da with nelem := da.nelem }
      else da) = grown ∧ grown.maxElem = (if da.maxElem ≤ da.nelem then
        if da.maxElem ≠ 0 then da.maxElem * 2 else 1 else da.maxElem) ∧
      grown.nelem = da.nelem ∧ grown.Fits szelem := by
    split_ifs with hfull h0
    · exact ⟨_, rfl, rfl, rfl, h.resized (by omega) (by omega)⟩
    · exact ⟨_, rfl, rfl, rfl, h.resized (by omega) (by omega)⟩
    · exact ⟨_, rfl, rfl, rfl, h⟩
  have hroom : grown.nelem < grown.maxElem := by
    rw [hsize, hnelem]
    split_ifs <;> omega
  have hcounted := h'.counted hroom (by have := h'.maxElem_le; omega)
  cases item with
  | none =>
    rw [darrPushImpl, hgrown]
    exact ⟨_, rfl, hcounted, congrArg (· + 1) hnelem, hsize⟩
  | some item =>
    rw [darrPushImpl, hgrown]
    have hend : grown.nelem * szelem + szelem ≤ grown.buf.length := by
      rw [h'.length_buf, h'.bufsz_eq, h'.szelem_eq]
      exact end_le hroom
    obtain ⟨buf, hbuf, hlen, -, -⟩ := exists_memcpy (hitem item rfl) hend
    rw [← h'.szelem_eq] at hbuf
    exact ⟨_, congrArg (Option.map _) hbuf,
      { hcounted with length_buf := hlen.trans h'.length_buf }, congrArg (· + 1) hnelem, hsize⟩

/-- An array of which a third is used has room for it in half its size. -/
theorem pop (h : da.Fits szelem) :
    (darrPopImpl da).Fits szelem ∧ (darrPopImpl da).nelem = da.nelem - 1 ∧
      (darrPopImpl da).maxElem = if da.nelem ≠ 0 ∧ da.nelem ≤ da.maxElem / 3 then da.maxElem / 2
        else da.maxElem := by
  have hle := h.nelem_le
  have hmax := h.maxElem_le
  rw [darrPopImpl]
  by_cases h0 : da.nelem = 0
  · rw [if_pos h0, if_neg fun hand => hand.1 h0]
    exact ⟨h, by omega, rfl⟩
  rw [if_neg h0]
  by_cases h3 : da.nelem ≤ da.maxElem / 3
  · have hhalf : ({ darrResizeImpl (da.maxElem / 2) da with nelem := da.nelem } : Darr).Fits
        szelem := h.resized (by omega) (by omega)
    rw [if_pos h3, if_pos ⟨h0, h3⟩]
    exact ⟨hhalf.counted (by dsimp only [darrResizeImpl]; omega)
      (by dsimp only [darrResizeImpl]; omega), rfl, rfl⟩
  · rw [if_neg h3, if_neg fun hand => h3 hand.2]
    exact ⟨h.counted (by omega) (by omega), rfl, rfl⟩

/-- One operation, and the sizes after it. -/
theorem step (h : da.Fits szelem) (op : DarrOp szelem) :
    ∃ da', da.step op = some da' ∧ da'.Fits szelem ∧ da'.nelem = op.count da.nelem ∧
      da'.maxElem = (op.resizes da).getD da.maxElem := by
  cases op with
  | push item hitem =>
    obtain ⟨da', hda', h', hnelem, hsize⟩ := h.push hitem
    refine ⟨da', hda', h', hnelem, hsize.trans ?_⟩
    rw [DarrOp.resizes]
    split_ifs <;> rfl
  | pop =>
    obtain ⟨h', hnelem, hsize⟩ := h.pop
    refine ⟨_, rfl, h', hnelem, hsize.trans ?_⟩
    rw [DarrOp.resizes]
    split_ifs <;> rfl
  | clear => exact ⟨_, rfl, h.resized le_rfl (Nat.zero_le _), rfl, rfl⟩
  | resize elem => exact ⟨_, rfl, h.resized le_rfl (by omega), rfl, rfl⟩

/-- What is moved of an array, in elements. -/
theorem moves_le (h : da.Fits szelem) (op : DarrOp szelem) :
    op.moves da ≤ szelem * (op.resizes da).elim 0 (min da.maxElem) := by
  rw [DarrOp.moves]
  cases op.resizes da with
  | none => exact Nat.zero_le _
  | some elem =>
    dsimp only [Option.elim_some]
    rw [List.length_take, h.length_buf, h.bufsz_eq, h.szelem_eq, Nat.mul_comm da.maxElem,
      Nat.mul_min_mul_left, Nat.min_comm]

/-- The sizes come closer to the middle by what is moved, but for the allowance. -/
theorem potential_step (h : da.Fits szelem) {op : DarrOp szelem}
    (hnelem : da'.nelem = op.count da.nelem)
    (hsize : da'.maxElem = (op.resizes da).getD da.maxElem) :
    (op.resizes da).elim 0 (min da.maxElem) + da'.potential ≤ da.potential + op.allowance := by
  have hle := h.nelem_le
  rw [potential, potential, hnelem, hsize]
  cases op with
  | push item hitem =>
    rw [DarrOp.resizes, DarrOp.allowance, DarrOp.count]
    split_ifs with hfull h0 <;>
      simp only [Option.getD_some, Option.getD_none, Option.elim_some, Option.elim_none] <;> omega
  | pop =>
    rw [DarrOp.resizes, DarrOp.allowance, DarrOp.count]
    split_ifs with hthird <;>
      simp only [Option.getD_some, Option.getD_none, Option.elim_some, Option.elim_none] <;> omega
  | clear | resize =>
    simp only [DarrOp.resizes, DarrOp.allowance, DarrOp.count, Option.getD_some, Option.elim_some]
    omega

/-- **One operation**: what it moves is paid for by its allowance and by what the sizes have come
closer to the middle. -/
theorem amortized (h : da.Fits szelem) (op : DarrOp szelem) :
    ∃ da', da.step op = some da' ∧ da'.Fits szelem ∧
      op.moves da + szelem * da'.potential ≤ szelem * da.potential + szelem * op.allowance := by
  obtain ⟨da', hda', h', hnelem, hsize⟩ := h.step op
  refine ⟨da', hda', h', ?_⟩
  calc op.moves da + szelem * da'.potential
      ≤ szelem * (op.resizes da).elim 0 (min da.maxElem) + szelem * da'.potential :=
        Nat.add_le_add_right (h.moves_le op) _
    _ = szelem * ((op.resizes da).elim 0 (min da.maxElem) + da'.potential) :=
        (Nat.mul_add _ _ _).symm
    _ ≤ szelem * (da.potential + op.allowance) :=
        Nat.mul_le_mul_left _ (h.potential_step hnelem hsize)
    _ = szelem * da.potential + szelem * op.allowance := Nat.mul_add _ _ _

/-- What a run moves, and the sizes after it. -/
theorem moved_run (h : da.Fits szelem) (ops : List (DarrOp szelem))
    (hsizes : ∀ elem ∈ da.sizes ops, FitsInt szelem elem) :
    ∃ da', da.runInt ops = some da' ∧ da'.Fits szelem ∧
      da.moved ops + szelem * da'.potential ≤
        szelem * da.potential + szelem * (ops.map DarrOp.allowance).sum := by
  induction ops generalizing da with
  | nil =>
    refine ⟨da, rfl, h, ?_⟩
    rw [moved]
    omega
  | cons op ops ih =>
    obtain ⟨da₁, hda₁, h₁, hfirst⟩ := h.amortized op
    rw [sizes, hda₁, Option.elim_some, List.forall_mem_append] at hsizes
    have hint : da.stepInt op = some da₁ := by
      rw [stepInt, if_pos, hda₁]
      intro elem helem
      rw [h.szelem_eq]
      exact hsizes.1 elem (Option.mem_toList.mpr helem)
    obtain ⟨da₂, hda₂, h₂, hrest⟩ := ih h₁ hsizes.2
    refine ⟨da₂, by rw [runInt, List.foldlM_cons, hint]; exact hda₂, h₂, ?_⟩
    rw [moved, hda₁, Option.elim_some, List.map_cons, List.sum_cons, Nat.mul_add]
    omega

end Fits

end Darr

/-- **What the sizes of arrays cost**: no run of operations on a new array writes past the end of
its buffer, not even one that resizes it to a larger size, as long as every size of the buffer is
below `INT_MAX`. An operation of the run moves four elements on the average, or twice the size the
program gives it, and the buffer is never larger than three times what is used, up to two
elements. -/
theorem darr_run_moved {szelem : ℕ} (ops : List (DarrOp szelem))
    (hsizes : ∀ elem ∈ (darrAlloc 0 szelem).sizes ops, Darr.FitsInt szelem elem) :
    ∃ da, (darrAlloc 0 szelem).runInt ops = some da ∧
      da.nelem ≤ da.maxElem ∧ da.maxElem ≤ 3 * da.nelem + 2 ∧
      da.buf.length = da.maxElem * szelem ∧
      (darrAlloc 0 szelem).moved ops ≤ szelem * (ops.map DarrOp.allowance).sum := by
  obtain ⟨da, hda, h, hmoved⟩ := (Darr.fits_darrAlloc szelem).moved_run ops hsizes
  have hpot : (darrAlloc 0 szelem).potential = 0 := rfl
  have hbuf := h.length_buf
  rw [h.bufsz_eq, h.szelem_eq] at hbuf
  rw [hpot, Nat.mul_zero, Nat.zero_add] at hmoved
  exact ⟨da, hda, h.nelem_le, h.maxElem_le, hbuf, le_trans (Nat.le_add_right _ _) hmoved⟩

/-- An array that is resized to a larger size, and what is pushed and popped then. -/
theorem darr_run_moved_resize :
    let ops : List (DarrOp 2) := [.resize 3, .push (some [1, 2]) (by simp), .pop,
      .push none (by simp)]
    ∃ da, (darrAlloc 0 2).runInt ops = some da ∧
      da.nelem ≤ da.maxElem ∧ da.maxElem ≤ 3 * da.nelem + 2 ∧
      da.buf.length = da.maxElem * 2 ∧
      (darrAlloc 0 2).moved ops ≤ 2 * (ops.map DarrOp.allowance).sum :=
  darr_run_moved _ (by decide)

/-- The size of a buffer that does not fit: `1 << 30` elements of four bytes. -/
example (da : Darr) (h : da.szelem = 4) : da.stepInt (.resize (2 ^ 30) : DarrOp 4) = none := by
  refine if_neg fun hfits => ?_
  have hsize := (hfits (2 ^ 30) rfl).2
  rw [h] at hsize
  omega

end Visftp
