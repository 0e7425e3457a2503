import Mathlib.Data.List.Nodup
import Mathlib.Logic.Function.Basic

/-!
# Singly linked chains

A heap in which every node has a `next` pointer, as a function that may be updated at one node.
`Segment next ptr l stop` says that following the pointers from `ptr` visits the nodes of `l` and
arrives at `stop`; a list that ends with the null pointer is a segment up to `none`. Segments are
put one behind the other (`segment_append_iff`), do not depend on nodes that are not in them
(`Segment.congr`), and are changed at their last link (`Segment.relink`): unlinking a node and
linking one in are both of that kind. Where many lists share their nodes' `next` pointers, a node is
unlinked from one of them without a change to the others (`segment_unlink`), as long as no node is
in two.
-/

namespace Chains

variable {ν : Type*} {next next' : ν → Option ν} {ptr stop : Option ν} {l l' : List ν} {a i : ν}

/-- Following `next` from `ptr` visits the nodes of the list and arrives at `stop`. -/
def Segment (next : ν → Option ν) : Option ν → List ν → Option ν → Prop
  | ptr, [], stop => ptr = stop
  | ptr, a :: l, stop => ptr = some a ∧ Segment next (next a) l stop

theorem segment_cons_iff :
    Segment next ptr (a :: l) stop ↔ ptr = some a ∧ Segment next (next a) l stop :=
  Iff.rfl

/-- Two segments, one behind the other. -/
theorem segment_append_iff : Segment next ptr (l ++ l') stop ↔
    ∃ mid, Segment next ptr l mid ∧ Segment next mid l' stop := by
  induction l generalizing ptr with
  | nil =>
    constructor
    · intro h
      exact ⟨ptr, rfl, h⟩
    · rintro ⟨mid, rfl, h⟩
      exact h
  | cons a l ih =>
    rw [List.cons_append, segment_cons_iff, ih]
    constructor
    · rintro ⟨hptr, mid, h, h'⟩
      exact ⟨mid, ⟨hptr, h⟩, h'⟩
    · rintro ⟨mid, ⟨hptr, h⟩, h'⟩
      exact ⟨hptr, mid, h, h'⟩

/-- A segment only depends on the pointers of its own nodes. -/
theorem Segment.congr (h : Segment next ptr l stop) (hnext : ∀ a ∈ l, next' a = next a) :
    Segment next' ptr l stop := by
  induction l generalizing ptr with
  | nil => exact h
  | cons a l ih =>
    obtain ⟨ha, hl⟩ := List.forall_mem_cons.mp hnext
    refine ⟨h.1, ih ?_ hl⟩
    rw [ha]
    exact h.2

/-- A list starts with its first node. -/
theorem Segment.ptr_eq (h : Segment next ptr l none) : ptr = l.head? := by
  cases l with
  | nil => exact h
  | cons a l => exact h.1

/-- A node that a segment leads to is in every list that starts where the segment does. -/
theorem Segment.mem_of_stop (h : Segment next ptr l (some a)) (h' : Segment next ptr l' none) :
    a ∈ l' := by
  induction l generalizing ptr l' with
  | nil =>
    obtain rfl : ptr = some a := h
    cases l' with
    | nil => simp [Segment] at h'
    | cons b l' =>
      obtain rfl : a = b := Option.some.inj h'.1
      exact List.mem_cons_self
  | cons b l ih =>
    obtain ⟨rfl, h⟩ := h
    cases l' with
    | nil => simp [Segment] at h'
    | cons c l' =>
      obtain rfl : b = c := Option.some.inj h'.1
      exact List.mem_cons_of_mem _ (ih h h'.2)

variable [DecidableEq ν]

/-- The last link of a segment leads somewhere else. -/
theorem Segment.relink (h : Segment next ptr (l ++ [i]) stop) (hi : i ∉ l) (stop' : Option ν) :
    Segment (Function.update next i stop') ptr (l ++ [i]) stop' := by
  obtain ⟨mid, hl, hmid, -⟩ := segment_append_iff.mp h
  refine segment_append_iff.mpr ⟨mid, hl.congr fun a ha => ?_, hmid, Function.update_self _ _ _⟩
  exact Function.update_of_ne (ne_of_mem_of_not_mem ha hi) _ _

/-- A node is unlinked: the one before it takes its `next`. -/
theorem Segment.unlink (h : Segment next ptr (l ++ i :: a :: l') none)
    (hnodup : (l ++ i :: a :: l').Nodup) :
    Segment (Function.update next i (next a)) ptr (l ++ i :: l') none := by
  have hi : i ∉ l ∧ i ∉ l' := by
    rw [List.nodup_append, List.nodup_cons] at hnodup
    obtain ⟨-, ⟨hnext, -⟩, hdisj⟩ := hnodup
    refine ⟨fun hmem => hdisj i hmem i List.mem_cons_self rfl, fun hmem => hnext ?_⟩
    exact List.mem_cons_of_mem _ hmem
  rw [← List.singleton_append, ← List.append_assoc] at h ⊢
  obtain ⟨mid, hl, -, hl'⟩ := segment_append_iff.mp h
  refine segment_append_iff.mpr ⟨next a, hl.relink hi.1 _, hl'.congr fun b hb => ?_⟩
  exact Function.update_of_ne (ne_of_mem_of_not_mem hb hi.2) _ _

/-- A node is linked in behind the last one. -/
theorem Segment.link (h : Segment next ptr (l ++ [i]) none) (hi : i ∉ l) (hai : a ≠ i)
    (ha : next a = none) :
    Segment (Function.update next i (some a)) ptr (l ++ [i] ++ [a]) none := by
  refine segment_append_iff.mpr ⟨some a, h.relink hi _, rfl, ?_⟩
  show Function.update next i (some a) a = none
  rw [Function.update_of_ne hai, ha]

/-! ### Many lists -/

variable {κ : Type*} [DecidableEq κ] {head : κ → Option ν} {lists : κ → List ν} {k : κ}

/-- The first nodes of the lists when the node `a` is unlinked from behind `iter`, where `none` is
the head of the list. -/
def unlinkHead (next : ν → Option ν) (iter : Option ν) (a : ν) (head : κ → Option ν) (k : κ) :
    κ → Option ν :=
  match iter with
  | none => Function.update head k (next a)
  | some _ => head

/-- The pointers when the node `a` is unlinked from behind `iter`. -/
def unlinkNext (next : ν → Option ν) (iter : Option ν) (a : ν) : ν → Option ν :=
  match iter with
  | none => next
  | some i => Function.update next i (next a)

/-- **A node is unlinked** from the list that it is in, and the others stay as they are. -/
theorem segment_unlink (hseg : ∀ k, Segment next (head k) (lists k) none)
    (hdisj : ∀ k k' a, a ∈ lists k → a ∈ lists k' → k = k') (hnodup : (lists k).Nodup)
    (hlist : lists k = l ++ a :: l') (m : κ) :
    Segment (unlinkNext next l.getLast? a) (unlinkHead next l.getLast? a head k m)
      (Function.update lists k (l ++ l') m) none := by
  have hk := hseg k
  rw [hlist] at hk hnodup
  rcases l.eq_nil_or_concat' with rfl | ⟨l, i, rfl⟩
  · show Segment next (Function.update head k (next a) m) _ none
    rcases eq_or_ne m k with rfl | hm
    · rw [Function.update_self, Function.update_self]
      exact hk.2
    · rw [Function.update_of_ne hm, Function.update_of_ne hm]
      exact hseg m
  · rw [List.getLast?_concat]
    show Segment (Function.update next i (next a)) (head m) _ none
    rw [List.append_assoc, List.singleton_append] at hk hnodup
    rcases eq_or_ne m k with rfl | hm
    · rw [Function.update_self, List.append_assoc]
      exact hk.unlink hnodup
    · rw [Function.update_of_ne hm]
      refine (hseg m).congr fun b hb => Function.update_of_ne ?_ _ _
      rintro rfl
      exact hm (hdisj m k _ hb (by rw [hlist]; simp))

end Chains
