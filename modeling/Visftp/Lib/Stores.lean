import Mathlib.Data.Option.Basic
import Mathlib.Logic.Function.Basic

/-!
# Sequences of stores

Memory without bounds, a function of the address, and stores to it, one after the other. A cell
holds what the last store to it has left there, so a sequence of stores is known by `last`: how it
is composed, where it stores nothing, and where all that it stores is one value.

## Main definitions

* `Stores.run`, `Stores.last` — the memory after the stores, and what they leave in a cell
* `Stores.Within` — no address outside a set is stored to

## Main results

* `Stores.run_apply` — a cell of the memory after the stores
* `Stores.last_append`, `last_eq_some`, `last_eq_none` — how `last` is found
-/

namespace Stores

variable {ι β : Type*} {ss ss' : List (ι × β)} {S T : Set ι} {m : ι → β} {k : ι} {v : β}

/-- Only these addresses are stored to. -/
def Within (S : Set ι) (ss : List (ι × β)) : Prop := ∀ s ∈ ss, s.1 ∈ S

theorem Within.append (h : Within S ss) (h' : Within S ss') : Within S (ss ++ ss') := by
  intro s hs
  rcases List.mem_append.mp hs with hs | hs
  · exact h s hs
  · exact h' s hs

theorem Within.mono (h : Within S ss) (hST : S ⊆ T) : Within T ss := fun s hs => hST (h s hs)

theorem Within.flatMap {κ : Type*} {l : List κ} {f : κ → List (ι × β)}
    (h : ∀ a ∈ l, Within S (f a)) : Within S (l.flatMap f) := by
  intro s hs
  obtain ⟨a, ha, hs⟩ := List.mem_flatMap.mp hs
  exact h a ha s hs

variable [DecidableEq ι]

/-- The memory after the stores. -/
def run (ss : List (ι × β)) (m : ι → β) : ι → β :=
  ss.foldl (fun m s => Function.update m s.1 s.2) m

/-- What the last of the stores to a cell has left there. -/
def last (ss : List (ι × β)) (k : ι) : Option β :=
  match ss with
  | [] => none
  | s :: ss => (last ss k).or (if k = s.1 then some s.2 else none)

@[simp] theorem run_nil (m : ι → β) : run [] m = m := rfl

@[simp] theorem last_nil (k : ι) : last ([] : List (ι × β)) k = none := rfl

@[simp] theorem last_cons (s : ι × β) (ss : List (ι × β)) (k : ι) :
    last (s :: ss) k = (last ss k).or (if k = s.1 then some s.2 else none) := rfl

theorem run_append (ss ss' : List (ι × β)) (m : ι → β) : run (ss ++ ss') m = run ss' (run ss m) :=
  List.foldl_append

/-- **A cell after the stores** holds what the last store to it has left there. -/
theorem run_apply (ss : List (ι × β)) (m : ι → β) (k : ι) :
    run ss m k = (last ss k).getD (m k) := by
  induction ss generalizing m with
  | nil => rfl
  | cons s ss ih =>
    show run ss (Function.update m s.1 s.2) k = _
    rw [ih, last_cons, Function.update_apply]
    cases last ss k with
    | none => split <;> rfl
    | some v => rfl

/-- Later stores count first. -/
theorem last_append (ss ss' : List (ι × β)) (k : ι) :
    last (ss ++ ss') k = (last ss' k).or (last ss k) := by
  induction ss with
  | nil => simp
  | cons s ss ih => rw [List.cons_append, last_cons, ih, last_cons, Option.or_assoc]

/-- A cell that is not stored to. -/
theorem last_eq_none (h : ∀ s ∈ ss, s.1 ≠ k) : last ss k = none := by
  induction ss with
  | nil => rfl
  | cons s ss ih =>
    obtain ⟨hs, hss⟩ := List.forall_mem_cons.mp h
    rw [last_cons, ih hss, if_neg (Ne.symm hs)]
    rfl

/-- A cell that is stored to, always with the same value. -/
theorem last_eq_some (h : ∀ s ∈ ss, s.1 = k → s.2 = v) (hk : ∃ s ∈ ss, s.1 = k) :
    last ss k = some v := by
  induction ss with
  | nil => simp at hk
  | cons s ss ih =>
    obtain ⟨hs, hss⟩ := List.forall_mem_cons.mp h
    rw [last_cons]
    by_cases hex : ∃ s' ∈ ss, s'.1 = k
    · rw [ih hss hex]
      rfl
    · have hnone : last ss k = none := last_eq_none fun s' hs' heq => hex ⟨s', hs', heq⟩
      obtain ⟨s', hs', heq⟩ := hk
      rcases List.mem_cons.mp hs' with rfl | hmem
      · rw [hnone, if_pos heq.symm, hs heq]
        rfl
      · exact absurd ⟨s', hmem, heq⟩ hex

/-- Stores of one value, for instance in a loop. -/
theorem last_const {p : Prop} [Decidable p] (h : ∀ s ∈ ss, s.2 = v) (hp : (∃ s ∈ ss, s.1 = k) ↔ p) :
    last ss k = if p then some v else none := by
  split
  · next hyes => exact last_eq_some (fun s hs _ => h s hs) (hp.mpr hyes)
  · next hno => exact last_eq_none fun s hs heq => hno (hp.mp ⟨s, hs, heq⟩)

theorem Within.last_eq_none (h : Within S ss) (hk : k ∉ S) : last ss k = none :=
  Stores.last_eq_none fun s hs heq => hk (heq ▸ h s hs)

/-- Outside of what is stored to, the memory stays. -/
theorem Within.run_apply (h : Within S ss) (hk : k ∉ S) : run ss m k = m k := by
  rw [Stores.run_apply, h.last_eq_none hk]
  rfl

end Stores
