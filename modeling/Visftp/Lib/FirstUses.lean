import Mathlib.Data.List.Induction
import Mathlib.Data.List.Nodup
import Mathlib.Data.List.Perm.Subperm

/-!
# Tables that number what is asked for

A table of bounded size that gives a number to each key it is asked for, in the order in which they
are first asked for, and remembers the number that was given last. A full table gives no number to
a new key; the last number stays. So the keys with a number are the first ones of all that were
asked for, and the number that is remembered is that of the last key which has one.

## Main definitions

* `FirstUses` — a table
* `FirstUses.ask`, `FirstUses.run` — one request, and any number of them

## Main results

* `FirstUses.names_run` — which keys have a number
* `FirstUses.remembered_run`, `FirstUses.remembered_run_iff` — which number is remembered
-/

variable {α : Type*}

/-- A table: the keys by their numbers, which are counted from one, and the last number. -/
structure FirstUses (α : Type*) where
  names : List α
  last : ℕ

namespace FirstUses

/-- A table before it is asked for anything. -/
def empty : FirstUses α := ⟨[], 0⟩

/-- The key with the last number. -/
def current (t : FirstUses α) : Option α := if t.last = 0 then none else t.names[t.last - 1]?

variable [DecidableEq α] {limit : ℕ} {a : α} {l : List α} {t : FirstUses α}

/-- The table is asked for the number of a key. -/
def ask (limit : ℕ) (a : α) (t : FirstUses α) : FirstUses α :=
  if a ∈ t.names then { t with last := t.names.idxOf a + 1 }
  else if t.names.length < limit then ⟨t.names ++ [a], t.names.length + 1⟩
  else t

/-- The requests of a run. -/
def run (limit : ℕ) (l : List α) (t : FirstUses α) : FirstUses α :=
  l.foldl (fun t a => t.ask limit a) t

@[simp] theorem run_append_singleton (limit : ℕ) (l : List α) (a : α) (t : FirstUses α) :
    run limit (l ++ [a]) t = ask limit a (run limit l t) := by
  simp [run]

/-- A key that has a number, or is given one, is the one that is remembered. -/
theorem current_ask (h : a ∈ (t.ask limit a).names) : (t.ask limit a).current = some a := by
  by_cases hmem : a ∈ t.names
  · rw [ask, if_pos hmem, current, if_neg (Nat.succ_ne_zero _), Nat.add_sub_cancel]
    exact List.getElem?_idxOf hmem
  · rw [ask, if_neg hmem] at h ⊢
    by_cases hroom : t.names.length < limit
    · rw [if_pos hroom, current, if_neg (Nat.succ_ne_zero _), Nat.add_sub_cancel]
      exact List.getElem?_concat_length
    · rw [if_neg hroom] at h
      exact absurd h hmem

/-- A key without a number changes nothing. -/
theorem ask_of_notMem (h : a ∉ (t.ask limit a).names) : t.ask limit a = t := by
  have hmem : a ∉ t.names := by
    intro hmem
    rw [ask, if_pos hmem] at h
    exact h hmem
  rw [ask, if_neg hmem] at h ⊢
  by_cases hroom : t.names.length < limit
  · rw [if_pos hroom] at h
    exact absurd (List.mem_append_right _ (List.mem_singleton_self a)) h
  · exact if_neg hroom

/-- A key that is asked for again has the number it had. -/
theorem ask_ask : (t.ask limit a).ask limit a = t.ask limit a := by
  by_cases h : a ∈ (t.ask limit a).names
  · by_cases hmem : a ∈ t.names
    · have hask : t.ask limit a = { t with last := t.names.idxOf a + 1 } := if_pos hmem
      rw [hask, ask, if_pos hmem]
    · have hroom : t.names.length < limit := by
        by_contra hfull
        rw [ask, if_neg hmem, if_neg hfull] at h
        exact hmem h
      have hask : t.ask limit a = ⟨t.names ++ [a], t.names.length + 1⟩ := by
        rw [ask, if_neg hmem, if_pos hroom]
      rw [hask, ask, if_pos (List.mem_append_right _ (List.mem_singleton_self a)),
        List.idxOf_append_of_notMem hmem]
      simp
  · rw [ask_of_notMem h, ask_of_notMem h]

/-- A key keeps its number. -/
theorem prefix_ask (limit : ℕ) (a : α) (t : FirstUses α) :
    t.names <+: (t.ask limit a).names := by
  rw [ask]
  split
  · exact List.prefix_rfl
  split
  · exact List.prefix_append ..
  · exact List.prefix_rfl

theorem length_ask_le (a : α) (h : t.names.length ≤ limit) :
    (t.ask limit a).names.length ≤ limit := by
  rw [ask]
  split
  · exact h
  split
  · next hroom =>
    rw [List.length_append]
    exact hroom
  · exact h

theorem last_ask_le (a : α) (h : t.last ≤ t.names.length) :
    (t.ask limit a).last ≤ (t.ask limit a).names.length := by
  rw [ask]
  split
  · next hmem => exact List.idxOf_lt_length_iff.mpr hmem
  split
  · rw [List.length_append]
    exact Nat.le_refl _
  · exact h

theorem prefix_run (limit : ℕ) (l : List α) (t : FirstUses α) :
    t.names <+: (run limit l t).names := by
  induction l generalizing t with
  | nil => exact List.prefix_rfl
  | cons a l ih => exact (prefix_ask limit a t).trans (ih (t.ask limit a))

theorem eraseDups_append_singleton (l : List α) (a : α) :
    (l ++ [a]).eraseDups = if a ∈ l then l.eraseDups else l.eraseDups ++ [a] := by
  rw [List.eraseDups_append]
  by_cases h : a ∈ l
  · rw [if_pos h, List.cons_removeAll, if_neg (by simpa using h)]
    simp
  · rw [if_neg h, List.cons_removeAll, if_pos (by simpa using h)]
    simp [List.eraseDups_cons]

/-- There are no more different keys than there can be. -/
theorem length_eraseDups_le {keys : List α} (h : ∀ a ∈ l, a ∈ keys) :
    l.eraseDups.length ≤ keys.length := by
  have hnodup : l.eraseDups.Nodup := by
    clear h
    induction l using List.reverseRecOn with
    | nil => exact List.nodup_nil
    | append_singleton l a ih =>
      rw [eraseDups_append_singleton]
      split
      · exact ih
      · next hmem =>
        rw [← List.mem_eraseDups] at hmem
        rw [← List.concat_eq_append]
        exact List.Nodup.concat hmem ih
  exact (hnodup.subperm fun a ha => h a (List.mem_eraseDups.mp ha)).length_le

/-- **The keys with a number** are the first ones that were asked for. -/
theorem names_run (limit : ℕ) (l : List α) :
    (run limit l empty).names = l.eraseDups.take limit := by
  induction l using List.reverseRecOn with
  | nil => simp [run, empty]
  | append_singleton l a ih =>
    rw [run_append_singleton, eraseDups_append_singleton, ask]
    by_cases hfull : l.eraseDups.length < limit
    · -- while there is room, all keys have a number
      have hall : (run limit l empty).names = l.eraseDups :=
        ih.trans (List.take_of_length_le (Nat.le_of_lt hfull))
      have hmem : a ∈ (run limit l empty).names ↔ a ∈ l := by rw [hall, List.mem_eraseDups]
      by_cases h : a ∈ l
      · rw [if_pos (hmem.mpr h), if_pos h]
        exact ih
      · rw [if_neg (mt hmem.mp h), if_neg h, hall, if_pos hfull, List.take_of_length_le]
        rw [List.length_append]
        exact hfull
    · have htake : (run limit l empty).names.length = limit := by
        rw [ih, List.length_take]
        omega
      have hlong : ∀ tail, (l.eraseDups ++ tail).take limit = l.eraseDups.take limit := fun tail =>
        List.take_append_of_le_length (by omega)
      have hsame : (if a ∈ l then l.eraseDups else l.eraseDups ++ [a]).take limit =
          l.eraseDups.take limit := by
        split
        · rfl
        · exact hlong [a]
      rw [htake, if_neg (Nat.lt_irrefl limit), hsame, ← ih]
      split <;> rfl

/-- **The number that is remembered** is that of the last key which has one. -/
theorem remembered_run (limit : ℕ) (l : List α) :
    (run limit l empty).current =
      (l.filter fun a => a ∈ l.eraseDups.take limit).getLast? := by
  induction l using List.reverseRecOn with
  | nil => rfl
  | append_singleton l a ih =>
    rw [run_append_singleton]
    have hnames := names_run limit (l ++ [a])
    rw [run_append_singleton] at hnames
    rw [← hnames, List.filter_append]
    by_cases h : a ∈ (ask limit a (run limit l empty)).names
    · rw [current_ask h, List.filter_singleton]
      simp [h]
    · rw [ask_of_notMem h, ih, names_run, List.filter_singleton]
      rw [ask_of_notMem h, names_run] at h
      simp [h]

/-- **The last key of all** is remembered if and only if it is one of the first ones. -/
theorem remembered_run_iff (limit : ℕ) (h : l.getLast? = some a) :
    (run limit l empty).current = some a ↔ a ∈ l.eraseDups.take limit := by
  obtain ⟨l, rfl⟩ := List.getLast?_eq_some_iff.mp h
  rw [← names_run, run_append_singleton]
  constructor
  · intro hcur
    rw [current] at hcur
    split at hcur
    · exact absurd hcur (by simp)
    · exact List.mem_of_getElem? hcur
  · exact current_ask

end FirstUses
