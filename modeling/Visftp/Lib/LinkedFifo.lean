import Mathlib.Data.List.Basic
import Mathlib.Data.List.Nodup

/-!
# A first-in first-out queue of linked nodes

The queue a C program keeps with a head and a tail pointer: nodes on a heap, each with a value and
a `next` pointer, a new node linked behind the tail, the first node unlinked from the head.
Addresses are natural numbers, and a fresh node takes the next unused one.

`LinkedFifo` carries the path from the head to the tail together with the proof that the pointers
follow it, so a queue whose tail is not the last node reachable from the head, or whose head and
tail are not null together, cannot be built. `toList` is what the queue holds; the operations are
the list operations on it (`toList_enqueue`, `toList_pop`).
-/

/-- A heap node: a value and a pointer, null when it is `none`. -/
structure LinkedFifo.Node (α : Type*) where
  /-- The value the node holds. -/
  val : α
  /-- The node behind this one. -/
  next : Option ℕ
  deriving DecidableEq

/-- Following `next` from `ptr` visits exactly the nodes at `path` and ends at a null pointer. -/
def LinkedFifo.IsPath {α : Type*} (cells : List (Node α)) : Option ℕ → List ℕ → Prop
  | ptr, [] => ptr = none
  | ptr, i :: path => ptr = some i ∧ ∃ c, cells[i]? = some c ∧ IsPath cells c.next path

/-- The queue: every node ever allocated, the two pointers, and the path between them. -/
structure LinkedFifo (α : Type*) where
  /-- The nodes, by address. -/
  cells : List (LinkedFifo.Node α)
  /-- The first node. -/
  head : Option ℕ
  /-- The last node. -/
  tail : Option ℕ
  /-- The addresses of the queued nodes, in order. -/
  path : List ℕ
  /-- The pointers follow the path. -/
  isPath : LinkedFifo.IsPath cells head path
  /-- The tail pointer is the end of the path. -/
  tail_eq : tail = path.getLast?
  /-- No node is visited twice. -/
  nodup : path.Nodup

namespace LinkedFifo

variable {α : Type*} {cells : List (Node α)}

theorem IsPath.lt_length {ptr : Option ℕ} {path : List ℕ} (h : IsPath cells ptr path) {i : ℕ}
    (hi : i ∈ path) : i < cells.length := by
  induction path generalizing ptr with
  | nil => simp at hi
  | cons j path ih =>
    obtain ⟨-, c, hc, hpath⟩ := h
    rcases List.mem_cons.mp hi with rfl | hi
    · exact (List.getElem?_eq_some_iff.mp hc).1
    · exact ih hpath hi

/-- Writing to a node off the path, or allocating behind the heap, leaves the path as it was. -/
theorem IsPath.frame {cells' : List (Node α)} {ptr : Option ℕ} {path : List ℕ}
    (h : IsPath cells ptr path) (hcells : ∀ i ∈ path, cells'[i]? = cells[i]?) :
    IsPath cells' ptr path := by
  induction path generalizing ptr with
  | nil => exact h
  | cons j path ih =>
    obtain ⟨hptr, c, hc, hpath⟩ := h
    refine ⟨hptr, c, ?_, ih hpath fun i hi => hcells i (List.mem_cons_of_mem _ hi)⟩
    rw [hcells j List.mem_cons_self, hc]

/-- The heap after `tail->next = fop` for a new node `fop` at the end of the heap. -/
def link (cells : List (Node α)) (tail : ℕ) (a : α) : List (Node α) :=
  cells.modify tail (fun c => { c with next := some cells.length }) ++ [⟨a, none⟩]

theorem IsPath.link {ptr : Option ℕ} {path : List ℕ} {t : ℕ} (h : IsPath cells ptr path)
    (hnodup : path.Nodup) (ht : path.getLast? = some t) (a : α) :
    IsPath (LinkedFifo.link cells t a) ptr (path ++ [cells.length]) := by
  induction path generalizing ptr with
  | nil => simp at ht
  | cons j path ih =>
    obtain ⟨hptr, c, hc, hpath⟩ := h
    have hj : j < cells.length := (List.getElem?_eq_some_iff.mp hc).1
    cases path with
    | nil =>
      -- the node written to is the last one: its new `next` is the new node
      obtain rfl : j = t := by simpa using ht
      refine ⟨hptr, { c with next := some cells.length }, ?_, rfl, ⟨a, none⟩, ?_, rfl⟩
      · rw [LinkedFifo.link, List.getElem?_append_left (by simpa using hj)]
        simp [hc]
      · rw [LinkedFifo.link, List.getElem?_append_right (by simp)]
        simp
    | cons k path =>
      have ht' : (k :: path).getLast? = some t := by simpa using ht
      have hjt : t ≠ j := by
        rintro rfl
        exact (List.nodup_cons.mp hnodup).1 (List.mem_of_getLast? ht')
      refine ⟨hptr, c, ?_, ih hpath (List.nodup_cons.mp hnodup).2 ht'⟩
      rw [LinkedFifo.link, List.getElem?_append_left (by simpa using hj),
        List.getElem?_modify, hc]
      simp [hjt]

/-- The empty queue. -/
def empty : LinkedFifo α := ⟨[], none, none, [], rfl, rfl, List.nodup_nil⟩

/-- What the queue holds, first node first. -/
def toList (q : LinkedFifo α) : List α := q.path.filterMap fun i => (q.cells[i]?).map Node.val

theorem path_eq_nil_iff (q : LinkedFifo α) : q.path = [] ↔ q.head = none := by
  have h := q.isPath
  cases hp : q.path with
  | nil => rw [hp] at h; exact iff_of_true rfl h
  | cons i path =>
    rw [hp] at h
    simp [h.1]

/-- What the invariant says at a head pointer that is not null. -/
theorem path_of_head {q : LinkedFifo α} {i : ℕ} (h : q.head = some i) :
    ∃ path c, q.path = i :: path ∧ q.cells[i]? = some c ∧ IsPath q.cells c.next path := by
  have hi := q.isPath
  cases hp : q.path with
  | nil => simp [q.path_eq_nil_iff.mp hp] at h
  | cons j path =>
    rw [hp] at hi
    obtain ⟨hj, c, hc, hpath⟩ := hi
    obtain rfl : i = j := by simpa [h] using hj
    exact ⟨path, c, rfl, hc, hpath⟩

/-- **Head and tail are null together.** -/
theorem head_eq_none_iff_tail (q : LinkedFifo α) : q.head = none ↔ q.tail = none := by
  rw [← path_eq_nil_iff, q.tail_eq, List.getLast?_eq_none_iff]

/-- Link a new node behind the tail. -/
def enqueue (q : LinkedFifo α) (a : α) : LinkedFifo α :=
  match h : q.tail with
  | some t =>
    { cells := link q.cells t a
      head := q.head
      tail := some q.cells.length
      path := q.path ++ [q.cells.length]
      isPath := q.isPath.link q.nodup (by rw [← q.tail_eq, h]) a
      tail_eq := by simp
      nodup := by
        rw [List.nodup_append_comm]
        exact List.nodup_cons.mpr ⟨fun hm => Nat.lt_irrefl _ (q.isPath.lt_length hm), q.nodup⟩ }
  | none =>
    { cells := q.cells ++ [⟨a, none⟩]
      head := some q.cells.length
      tail := some q.cells.length
      path := [q.cells.length]
      isPath := ⟨rfl, ⟨a, none⟩, by simp, rfl⟩
      tail_eq := rfl
      nodup := by simp }

theorem toList_eq_nil_iff (q : LinkedFifo α) : q.toList = [] ↔ q.head = none := by
  rw [← path_eq_nil_iff]
  constructor
  · intro h
    cases hh : q.head with
    | none => exact q.path_eq_nil_iff.mpr hh
    | some i =>
      obtain ⟨path, c, hp, hc, -⟩ := path_of_head hh
      simp [toList, hp, hc] at h
  · intro h
    simp [toList, h]

@[simp] theorem toList_empty : (empty : LinkedFifo α).toList = [] := rfl

@[simp] theorem toList_enqueue (q : LinkedFifo α) (a : α) :
    (q.enqueue a).toList = q.toList ++ [a] := by
  rw [enqueue]
  split
  · next t h =>
    rw [toList, toList, List.filterMap_append]
    congr 1
    · refine List.filterMap_congr fun i hi => ?_
      have hlt := q.isPath.lt_length hi
      simp only [link]
      rw [List.getElem?_append_left (by simpa using hlt), List.getElem?_modify]
      cases q.cells[i]? with
      | none => rfl
      | some c => by_cases hti : t = i <;> simp [hti]
    · simp [link]
  · next h =>
    have hnil : q.toList = [] := q.toList_eq_nil_iff.mpr (q.head_eq_none_iff_tail.mpr h)
    rw [hnil]
    simp [toList]

/-- Unlink the first node: its value, and the queue without it. The second `none` is the read of
a dangling head, which the invariant excludes. -/
def pop (q : LinkedFifo α) : Option (α × LinkedFifo α) :=
  match hh : q.head with
  | none => none
  | some i =>
    match hc : q.cells[i]? with
    | none => none
    | some c =>
      if ht : q.tail = some i then some (c.val, { q with
        head := none
        tail := none
        path := []
        isPath := rfl
        tail_eq := rfl
        nodup := List.nodup_nil })
      else some (c.val, { q with
        head := c.next
        path := q.path.tail
        isPath := by
          obtain ⟨path, c', hp, hc', hpath⟩ := path_of_head hh
          obtain rfl : c = c' := by simpa [hc] using hc'
          rwa [hp]
        tail_eq := by
          obtain ⟨path, -, hp, -, -⟩ := path_of_head hh
          rw [q.tail_eq, hp]
          cases path with
          | nil => simp [q.tail_eq, hp] at ht
          | cons j path => simp
        nodup := q.nodup.sublist (List.tail_sublist _) })

theorem pop_of_toList_nil {q : LinkedFifo α} (h : q.toList = []) : q.pop = none := by
  have hh := q.toList_eq_nil_iff.mp h
  rw [pop]
  split
  · rfl
  · next hh' => simp [hh] at hh'

theorem pop_of_toList_cons {q : LinkedFifo α} {a : α} {as : List α} (h : q.toList = a :: as) :
    ∃ q', q.pop = some (a, q') ∧ q'.toList = as := by
  rw [pop]
  split
  · next hh => simp [q.toList_eq_nil_iff.mpr hh] at h
  · next i hh =>
    obtain ⟨path, c, hp, hc, -⟩ := path_of_head hh
    split
    · next hc' => simp [hc] at hc'
    · next c' hc' =>
      obtain rfl : c = c' := by simpa [hc] using hc'
      simp only [toList, hp, List.filterMap_cons, hc, Option.map_some, List.cons.injEq] at h
      obtain ⟨rfl, rfl⟩ := h
      split
      · next ht =>
        -- the tail is the first node, so it is the only one
        have hlast : (i :: path).getLast? = some i := by rw [← hp, ← q.tail_eq, ht]
        have hpath : path = [] := by
          cases path with
          | nil => rfl
          | cons j path =>
            have hmem : i ∈ j :: path := List.mem_of_getLast? (by simpa using hlast)
            exact absurd hmem (List.nodup_cons.mp (hp ▸ q.nodup)).1
        exact ⟨_, rfl, by simp [toList, hpath]⟩
      · exact ⟨_, rfl, by simp [toList, hp]⟩

theorem toList_of_pop {q q' : LinkedFifo α} {a : α} (h : q.pop = some (a, q')) :
    q.toList = a :: q'.toList := by
  cases hl : q.toList with
  | nil => simp [pop_of_toList_nil hl] at h
  | cons b as =>
    obtain ⟨q₁, hpop, hq₁⟩ := pop_of_toList_cons hl
    obtain ⟨rfl, rfl⟩ := Prod.mk.inj (Option.some.inj (hpop.symm.trans h))
    rw [hq₁]

end LinkedFifo
