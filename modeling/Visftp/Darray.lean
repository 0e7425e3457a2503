import Mathlib.Data.List.Forall2
import Visftp.CString

/-!
# Dynamic arrays

`darray.c`: an array with its descriptor in front of it. A push doubles the buffer when it is full,
a pop halves it when a third of it is used, and whatever is cut off or copied, the elements that
are left stay where they are. The sizes are those of a buffer below `INT_MAX` bytes, so they are
natural numbers here.

## Main definitions

* `Darr` — an array, with the bytes of its buffer
* `darrAlloc`, `darrResizeImpl`, `darrPushImpl`, `darrPopImpl` — the functions
* `DarrOp`, `Darr.run` — runs
* `Darr.Holds` — the invariant: which elements an array has

## Main results

* `Holds.push`, `Holds.pop`, `Holds.resize` — one operation
* `darr_run` — whole runs, and the strings
-/

namespace Visftp

/-- An array: its descriptor and its buffer. A byte that was never written is `none`. -/
structure Darr where
  nelem : ℕ
  szelem : ℕ
  maxElem : ℕ
  bufsz : ℕ
  buf : List (Option Byte)
  deriving DecidableEq

/-- `darr_alloc` -/
def darrAlloc (elem szelem : ℕ) : Darr where
  nelem := elem
  szelem := szelem
  maxElem := elem
  bufsz := elem * szelem
  buf := List.replicate (elem * szelem) none

/-- `realloc` of a buffer to `n` bytes. -/
def realloc (buf : List (Option Byte)) (n : ℕ) : List (Option Byte) :=
  buf.take n ++ List.replicate (n - buf.length) none

/-- `memcpy` to a place in a buffer, or `none` when it would go over the end. -/
def memcpy (buf : List (Option Byte)) (offs : ℕ) (src : Bytes) : Option (List (Option Byte)) :=
  if offs + src.length ≤ buf.length then
    some (buf.take offs ++ src.map some ++ buf.drop (offs + src.length))
  else none

/-- `darr_resize_impl`. Its `newsz` is an `int`, so that this is for sizes below `INT_MAX`. -/
def darrResizeImpl (elem : ℕ) (da : Darr) : Darr :=
  { da with
    nelem := elem
    maxElem := elem
    bufsz := da.szelem * elem
    buf := realloc da.buf (da.szelem * elem) }

/-- `darr_clear_impl` -/
def darrClearImpl (da : Darr) : Darr := darrResizeImpl 0 da

/-- `darr_push_impl`. Without an item, the bytes of the element are left as they are. -/
def darrPushImpl (item : Option Bytes) (da : Darr) : Option Darr :=
  let da := if da.maxElem ≤ da.nelem then
      { darrResizeImpl (if da.maxElem ≠ 0 then da.maxElem * 2 else 1) da with nelem := da.nelem }
    else da
  match item with
  | none => some { da with nelem := da.nelem + 1 }
  | some item =>
    (memcpy da.buf (da.nelem * da.szelem) item).map fun buf =>
      { da with buf := buf, nelem := da.nelem + 1 }

/-- `darr_pop_impl` -/
def darrPopImpl (da : Darr) : Darr :=
  if da.nelem = 0 then da
  else
    let da := if da.nelem ≤ da.maxElem / 3 then
        { darrResizeImpl (da.maxElem / 2) da with nelem := da.nelem }
      else da
    { da with nelem := da.nelem - 1 }

/-- `darr_strpush` -/
def darrStrpush (c : Byte) (da : Darr) : Option Darr :=
  (darrPushImpl (some [c]) (darrPopImpl da)).bind (darrPushImpl (some [0]))

/-- `darr_strpop` -/
def darrStrpop (da : Darr) : Option Darr := darrPushImpl (some [0]) (darrPopImpl (darrPopImpl da))

namespace Darr

/-- The bytes of an element. -/
def slot (szelem i : ℕ) (buf : List (Option Byte)) : List (Option Byte) :=
  (buf.drop (i * szelem)).take szelem

/-- The elements of an array. -/
def elems (da : Darr) : List (List (Option Byte)) :=
  (List.range da.nelem).map fun i => slot da.szelem i da.buf

/-- The bytes of an element are those of its item, if it was given. -/
def Reads (item : Option Bytes) (elem : List (Option Byte)) : Prop :=
  ∀ bytes ∈ item, elem = bytes.map some

end Darr

/-! ### Runs -/

/-- The operations on an array with elements of `szelem` bytes. A push may be given no item. -/
inductive DarrOp (szelem : ℕ)
  | push (item : Option Bytes) (h : ∀ bytes ∈ item, bytes.length = szelem)
  | pop
  | clear
  | resize (elem : ℕ)

/-- What an operation makes of a list. The bytes of an element that was pushed without an item are
not known. -/
def DarrOp.onList {szelem : ℕ} (l : List (Option Bytes)) : DarrOp szelem → List (Option Bytes)
  | .push item _ => l ++ [item]
  | .pop => l.dropLast
  | .clear => []
  | .resize elem => l.take elem

/-- An array is not resized to a larger size. -/
def DarrOp.Within {szelem : ℕ} (l : List (Option Bytes)) : DarrOp szelem → Prop
  | .resize elem => elem ≤ l.length
  | _ => True

/-- No operation of a run resizes the array to a larger size. -/
def DarrOp.AllWithin {szelem : ℕ} (l : List (Option Bytes)) : List (DarrOp szelem) → Prop
  | [] => True
  | op :: ops => op.Within l ∧ AllWithin (op.onList l) ops

/-- The operations on a string. -/
inductive StrOp
  | push (c : Byte)
  | pop
  deriving DecidableEq

/-- What an operation makes of a string. -/
def StrOp.onString (s : Bytes) : StrOp → Bytes
  | .push c => s ++ [c]
  | .pop => s.dropLast

namespace Darr

/-- One operation; it fails when it writes past the end of the buffer. -/
def step {szelem : ℕ} (da : Darr) : DarrOp szelem → Option Darr
  | .push item _ => darrPushImpl item da
  | .pop => some (darrPopImpl da)
  | .clear => some (darrClearImpl da)
  | .resize elem => some (darrResizeImpl elem da)

/-- The operations of a run. -/
def run {szelem : ℕ} (da : Darr) (ops : List (DarrOp szelem)) : Option Darr := ops.foldlM step da

/-- One operation on a string. -/
def strStep (da : Darr) : StrOp → Option Darr
  | .push c => darrStrpush c da
  | .pop => darrStrpop da

/-- The operations on a string, one after the other. -/
def strRun (da : Darr) (ops : List StrOp) : Option Darr := ops.foldlM strStep da

/-! ### What an array holds -/

section Slot

variable {szelem i : ℕ} {a b : List (Option Byte)}

theorem end_le {n : ℕ} (h : i < n) : i * szelem + szelem ≤ n * szelem := by
  rw [← Nat.succ_mul]
  exact Nat.mul_le_mul_right szelem h

/-- An element lies in the part of the buffer up to its end. -/
theorem slot_take {m : ℕ} (h : i * szelem + szelem ≤ m) :
    slot szelem i (a.take m) = slot szelem i a := by
  rw [slot, slot, List.drop_take, List.take_take, min_eq_left (by omega)]

theorem slot_append (h : i * szelem + szelem ≤ a.length) :
    slot szelem i (a ++ b) = slot szelem i a := by
  rw [slot, slot, List.drop_append_of_le_length (by omega), List.take_append_of_le_length]
  rw [List.length_drop]
  omega

theorem slot_realloc {n : ℕ} (ha : i * szelem + szelem ≤ a.length)
    (hn : i * szelem + szelem ≤ n) : slot szelem i (realloc a n) = slot szelem i a := by
  rw [realloc, slot_append (by rw [List.length_take]; omega), slot_take hn]

theorem length_realloc (n : ℕ) : (realloc a n).length = n := by
  rw [realloc, List.length_append, List.length_take, List.length_replicate]
  omega

/-- An element that fits is copied in, and the rest of the buffer stays as it was. -/
theorem exists_memcpy {n : ℕ} {src : Bytes} (hsrc : src.length = szelem)
    (h : n * szelem + szelem ≤ a.length) :
    ∃ buf, memcpy a (n * szelem) src = some buf ∧ buf.length = a.length ∧
      slot szelem n buf = src.map some ∧ ∀ i < n, slot szelem i buf = slot szelem i a := by
  have htake : (a.take (n * szelem)).length = n * szelem := by
    rw [List.length_take, min_eq_left (by omega)]
  refine ⟨_, if_pos (by rw [hsrc]; exact h), ?_, ?_, ?_⟩
  · simp only [List.length_append, htake, List.length_map, List.length_drop]
    omega
  · rw [slot, List.append_assoc, List.drop_left' htake, ← hsrc]
    exact List.take_left' (List.length_map some)
  · intro i hi
    have hend : i * szelem + szelem ≤ n * szelem := end_le hi
    rw [List.append_assoc, slot_append (by rw [htake]; exact hend), slot_take hend]

end Slot

/-- **The invariant of an array**: it has the elements of the list, in a buffer they fit in. -/
structure Holds (da : Darr) (szelem : ℕ) (l : List (Option Bytes)) : Prop where
  szelem_eq : da.szelem = szelem
  nelem_eq : da.nelem = l.length
  nelem_le : da.nelem ≤ da.maxElem
  bufsz_eq : da.bufsz = da.maxElem * da.szelem
  length_buf : da.buf.length = da.bufsz
  slot_eq : ∀ i bytes, l[i]? = some (some bytes) → slot szelem i da.buf = bytes.map some

variable {da : Darr} {szelem : ℕ} {l : List (Option Bytes)}

theorem holds_darrAlloc (szelem : ℕ) : (darrAlloc 0 szelem).Holds szelem [] where
  szelem_eq := rfl
  nelem_eq := rfl
  nelem_le := le_rfl
  bufsz_eq := rfl
  length_buf := List.length_replicate
  slot_eq i bytes h := by simp at h

namespace Holds

/-- The buffer holds the elements there is room for. -/
theorem end_le_length {i : ℕ} (h : da.Holds szelem l) (hi : i < da.maxElem) :
    i * szelem + szelem ≤ da.buf.length := by
  rw [h.length_buf, h.bufsz_eq, h.szelem_eq]
  exact end_le hi

/-- A buffer of another size has the first elements still. The functions that change the size of
an array set the number of elements afterwards. -/
theorem resized {elem n : ℕ} (h : da.Holds szelem l) (hn : n ≤ l.length) (helem : n ≤ elem) :
    ({ darrResizeImpl elem da with nelem := n } : Darr).Holds szelem (l.take n) where
  szelem_eq := h.szelem_eq
  nelem_eq := by rw [List.length_take, min_eq_left hn]
  nelem_le := helem
  bufsz_eq := Nat.mul_comm _ _
  length_buf := length_realloc _
  slot_eq i bytes hi := by
    have hin : i < n := by
      by_contra hge
      rw [List.getElem?_take, if_neg hge] at hi
      simp at hi
    rw [List.getElem?_take, if_pos hin] at hi
    have hlen := h.nelem_eq
    have hmax := h.nelem_le
    show slot szelem i (realloc da.buf (da.szelem * elem)) = _
    rw [slot_realloc (h.end_le_length (by omega)), h.slot_eq i bytes hi]
    rw [h.szelem_eq, Nat.mul_comm szelem]
    exact end_le (by omega)

theorem resize {elem : ℕ} (h : da.Holds szelem l) (helem : elem ≤ l.length) :
    (darrResizeImpl elem da).Holds szelem (l.take elem) :=
  h.resized helem le_rfl

theorem clear (h : da.Holds szelem l) : (darrClearImpl da).Holds szelem [] := by
  have h0 := h.resize (Nat.zero_le l.length)
  rwa [List.take_zero] at h0

/-- A buffer of another size has the same elements when there is room for them. -/
theorem regrown {elem : ℕ} (h : da.Holds szelem l) (helem : l.length ≤ elem) :
    ({ darrResizeImpl elem da with nelem := da.nelem } : Darr).Holds szelem l := by
  have hall := h.resized le_rfl helem
  rwa [List.take_length, ← h.nelem_eq] at hall

/-- An array whose third is more than it has is still large enough at half its size. -/
theorem pop (h : da.Holds szelem l) : (darrPopImpl da).Holds szelem l.dropLast := by
  have hlen := h.nelem_eq
  have hdrop : ∀ da' : Darr, da'.Holds szelem l →
      ({ da' with nelem := da'.nelem - 1 } : Darr).Holds szelem l.dropLast := fun da' h' =>
    { szelem_eq := h'.szelem_eq
      nelem_eq := by rw [List.length_dropLast, ← h'.nelem_eq]
      nelem_le := le_trans (Nat.sub_le _ _) h'.nelem_le
      bufsz_eq := h'.bufsz_eq
      length_buf := h'.length_buf
      slot_eq := fun i bytes hi => h'.slot_eq i bytes (by
        rw [List.getElem?_dropLast] at hi
        split_ifs at hi with hlt
        exact hi) }
  rw [darrPopImpl]
  split_ifs with h0 h3
  · obtain rfl := List.eq_nil_of_length_eq_zero (hlen.symm.trans h0)
    exact h
  · exact hdrop _ (h.regrown (by omega))
  · exact hdrop _ h

/-- A push without an item only counts the element. -/
theorem count (h : da.Holds szelem l) (hroom : da.nelem < da.maxElem) :
    ({ da with nelem := da.nelem + 1 } : Darr).Holds szelem (l ++ [none]) where
  szelem_eq := h.szelem_eq
  nelem_eq := by rw [List.length_append, List.length_singleton, ← h.nelem_eq]
  nelem_le := hroom
  bufsz_eq := h.bufsz_eq
  length_buf := h.length_buf
  slot_eq i bytes hi := by
    refine h.slot_eq i bytes ?_
    rw [List.getElem?_append] at hi
    split_ifs at hi with hlt
    · exact hi
    · simp [List.getElem?_singleton] at hi

/-- An item is copied into an array that has room for it. -/
theorem write {item : Bytes} (h : da.Holds szelem l) (hroom : da.nelem < da.maxElem)
    (hitem : item.length = szelem) :
    ∃ buf, memcpy da.buf (da.nelem * da.szelem) item = some buf ∧
      ({ da with buf := buf, nelem := da.nelem + 1 } : Darr).Holds szelem (l ++ [some item]) := by
  obtain ⟨buf, hbuf, hbuflen, hslot, hrest⟩ := exists_memcpy hitem (h.end_le_length hroom)
  refine ⟨buf, by rw [h.szelem_eq, hbuf], h.szelem_eq, ?_, hroom, h.bufsz_eq,
    hbuflen.trans h.length_buf, ?_⟩
  · rw [List.length_append, List.length_singleton, ← h.nelem_eq]
  · intro i bytes hi
    have hlen := h.nelem_eq
    show slot szelem i buf = _
    rw [List.getElem?_append] at hi
    split_ifs at hi with hlt
    · exact (hrest i (by omega)).trans (h.slot_eq i bytes hi)
    · rw [List.getElem?_singleton] at hi
      split_ifs at hi with h0
      have hi' : i = da.nelem := by omega
      rw [hi', hslot, Option.some.inj (Option.some.inj hi)]

theorem push {item : Option Bytes} (h : da.Holds szelem l)
    (hitem : ∀ bytes ∈ item, bytes.length = szelem) :
    ∃ da', darrPushImpl item da = some da' ∧ da'.Holds szelem (l ++ [item]) := by
  have hlen := h.nelem_eq
  have hmax := h.nelem_le
  -- A full buffer grows, so that there is room in either case.
  obtain ⟨grown, hgrown, h', hroom⟩ : ∃ grown, (if da.maxElem ≤ da.nelem then
      { darrResizeImpl (if da.maxElem ≠ 0 then da.maxElem * 2 else 1) da with nelem := da.nelem }
      else da) = grown ∧ grown.Holds szelem l ∧ grown.nelem < grown.maxElem := by
    split_ifs with hfull h0
    · exact ⟨_, rfl, h.regrown (by omega), show da.nelem < da.maxElem * 2 by omega⟩
    · exact ⟨_, rfl, h.regrown (by omega), show da.nelem < 1 by omega⟩
    · exact ⟨_, rfl, h, by omega⟩
  cases item with
  | none =>
    rw [darrPushImpl, hgrown]
    exact ⟨_, rfl, h'.count hroom⟩
  | some item =>
    obtain ⟨buf, hbuf, hwrite⟩ := h'.write hroom (hitem item rfl)
    rw [darrPushImpl, hgrown]
    exact ⟨_, congrArg (Option.map _) hbuf, hwrite⟩

theorem step {op : DarrOp szelem} (h : da.Holds szelem l) (hop : op.Within l) :
    ∃ da', da.step op = some da' ∧ da'.Holds szelem (op.onList l) := by
  cases op with
  | push item hitem => exact h.push hitem
  | pop => exact ⟨_, rfl, h.pop⟩
  | clear => exact ⟨_, rfl, h.clear⟩
  | resize elem => exact ⟨_, rfl, h.resize hop⟩

theorem run {ops : List (DarrOp szelem)} (h : da.Holds szelem l) (hops : DarrOp.AllWithin l ops) :
    ∃ da', da.run ops = some da' ∧ da'.Holds szelem (ops.foldl DarrOp.onList l) := by
  induction ops generalizing da l with
  | nil => exact ⟨da, rfl, h⟩
  | cons op ops ih =>
    obtain ⟨da₁, hda₁, h₁⟩ := h.step hops.1
    obtain ⟨da₂, hda₂, h₂⟩ := ih h₁ hops.2
    refine ⟨da₂, ?_, h₂⟩
    rw [Darr.run, List.foldlM_cons, hda₁]
    exact hda₂

/-- The elements of an array, read from its buffer. -/
theorem forall₂_elems (h : da.Holds szelem l) : List.Forall₂ Reads l da.elems := by
  have hlen : da.elems.length = l.length := by
    rw [elems, List.length_map, List.length_range, h.nelem_eq]
  refine List.forall₂_iff_get.mpr ⟨hlen.symm, fun i hi hi' bytes hbytes => ?_⟩
  have hslot := h.slot_eq i bytes (by rw [List.getElem?_eq_getElem hi]; exact congrArg some hbytes)
  rw [← h.szelem_eq] at hslot
  simpa [elems] using hslot

/-- The elements of an array whose items were all given. -/
theorem elems_eq {items : List Bytes} (h : da.Holds szelem (items.map some)) :
    da.elems = items.map (List.map some) := by
  have hall : List.Forall₂ (fun item elem => item.map some = elem) items da.elems :=
    (List.forall₂_map_left_iff.mp h.forall₂_elems).imp fun item elem hread => (hread item rfl).symm
  rw [← List.forall₂_map_left_iff (R := Eq), List.forall₂_eq_eq_eq] at hall
  exact hall.symm

/-! ### Strings -/

/-- An operation on a string replaces its last element, so that it does not matter whether there is
one. -/
theorem strStep (op : StrOp) {items : List Bytes} {s : Bytes}
    (h : da.Holds 1 (items.map some)) (hitems : items.dropLast = s.map fun c => [c]) :
    ∃ da', da.strStep op = some da' ∧
      da'.Holds 1 (((op.onString s ++ [0]).map fun c => [c]).map some) := by
  have hpop := h.pop
  rw [← List.map_dropLast, hitems] at hpop
  have hone : ∀ c : Byte, ∀ bytes ∈ some [c], bytes.length = 1 := by simp
  cases op with
  | push c =>
    obtain ⟨da₁, hda₁, h₁⟩ := hpop.push (hone c)
    obtain ⟨da₂, hda₂, h₂⟩ := h₁.push (hone 0)
    refine ⟨da₂, ?_, ?_⟩
    · rw [Darr.strStep, darrStrpush, hda₁]
      exact hda₂
    · simpa [StrOp.onString] using h₂
  | pop =>
    obtain ⟨da₁, hda₁, h₁⟩ := hpop.pop.push (hone 0)
    refine ⟨da₁, hda₁, ?_⟩
    simpa [StrOp.onString, List.map_dropLast] using h₁

theorem strRun {ops : List StrOp} {items : List Bytes} {s : Bytes}
    (h : da.Holds 1 (items.map some)) (hitems : items.dropLast = s.map fun c => [c])
    (hops : ops ≠ []) :
    ∃ da', da.strRun ops = some da' ∧
      da'.Holds 1 (((ops.foldl StrOp.onString s ++ [0]).map fun c => [c]).map some) := by
  induction ops generalizing da items s with
  | nil => exact absurd rfl hops
  | cons op ops ih =>
    obtain ⟨da₁, hda₁, h₁⟩ := h.strStep op hitems
    rw [Darr.strRun, List.foldlM_cons, hda₁]
    rcases eq_or_ne ops [] with rfl | hne
    · exact ⟨da₁, rfl, h₁⟩
    · exact ih h₁ (by simp) hne

end Holds

/-- **An array has the elements of a list** that goes through the same operations: nothing is
written past the end of the buffer, whose size is that of the elements there is room for. A string
that something was pushed to or popped from ends with one zero. -/
theorem darr_run :
    (∀ (szelem : ℕ) (ops : List (DarrOp szelem)),
      DarrOp.AllWithin [] ops → ∃ da, (darrAlloc 0 szelem).run ops = some da ∧
        List.Forall₂ Reads (ops.foldl DarrOp.onList []) da.elems ∧
        da.nelem ≤ da.maxElem ∧ da.bufsz = da.maxElem * szelem ∧ da.buf.length = da.bufsz) ∧
    ∀ ops : List StrOp, ops ≠ [] → ∃ da, (darrAlloc 0 1).strRun ops = some da ∧
      da.elems = (ops.foldl StrOp.onString [] ++ [0]).map fun c => [some c] := by
  constructor
  · intro szelem ops hops
    obtain ⟨da, hda, h⟩ := (holds_darrAlloc szelem).run hops
    exact ⟨da, hda, h.forall₂_elems, h.nelem_le, by rw [h.bufsz_eq, h.szelem_eq], h.length_buf⟩
  · intro ops hops
    have hempty : (darrAlloc 0 1).Holds 1 (([] : List Bytes).map some) := holds_darrAlloc 1
    obtain ⟨da, hda, h⟩ := hempty.strRun (s := []) rfl hops
    refine ⟨da, hda, ?_⟩
    rw [h.elems_eq, List.map_map]
    exact List.map_congr_left fun c _ => rfl

/-- Two elements, of which the second is popped. -/
theorem darr_run_pop :
    (∃ da, (darrAlloc 0 2).run [(.push (some [1, 2]) (by simp) : DarrOp 2),
        .push (some [3, 4]) (by simp), .pop, .resize 1] = some da ∧
      List.Forall₂ Reads [some [1, 2]] da.elems ∧
      da.nelem ≤ da.maxElem ∧ da.bufsz = da.maxElem * 2 ∧ da.buf.length = da.bufsz) ∧
    ∃ da, (darrAlloc 0 1).strRun [.push 104, .pop, .push 105] = some da ∧
      da.elems = [[some 105], [some 0]] :=
  ⟨darr_run.1 2 _ (by simp [DarrOp.AllWithin, DarrOp.Within, DarrOp.onList]),
    darr_run.2 _ (by simp)⟩

/-- An empty array to which nothing was pushed has no zero at its end. -/
theorem not_darr_run :
    ¬ ∀ ops : List StrOp, ∃ da, (darrAlloc 0 1).strRun ops = some da ∧
      da.elems = (ops.foldl StrOp.onString [] ++ [0]).map fun c => [some c] := by
  intro h
  obtain ⟨da, hda, helems⟩ := h []
  obtain rfl := Option.some.inj hda
  exact absurd helems (by decide)

end Darr

end Visftp
