import Mathlib.Logic.Basic
import Mathlib.Order.Basic

/-!
# Allocations that may fail

A program whose values own what their pointers refer to. An oracle says which of the allocations to
come succeed, and a computation takes its allocations from it one by one. What C leaves undefined
is a computation without a result: storage that is released twice, or a null pointer that is
written through.

`Gives m k a` is the rule for the runs in which nothing fails: with `k` allocations granted, `m`
takes them and gives `a`. It is put together along the program (`Gives.pure`, `Gives.bind`).
For the other runs, `bind_eq_some_iff` takes a computation apart.
-/

namespace Alloc

variable {α β : Type}

/-- A pointer to storage that no other pointer refers to. -/
inductive Ptr (α : Type)
  /-- The null pointer. -/
  | null
  /-- Storage with its contents. -/
  | own (contents : α)
  /-- Storage that was released. -/
  | freed
  deriving DecidableEq

/-- `free`: nothing happens to the null pointer, and what was released cannot be released again. -/
def Ptr.free : Ptr α → Option (Ptr α)
  | .null => some .null
  | .own _ => some .freed
  | .freed => none

/-- The pointer is not null. -/
def Ptr.isSet : Ptr α → Bool
  | .null => false
  | _ => true

@[simp] theorem Ptr.isSet_null : (Ptr.null : Ptr α).isSet = false := rfl

@[simp] theorem Ptr.isSet_own (a : α) : (Ptr.own a).isSet = true := rfl

theorem Ptr.isSet_eq_false_iff {ptr : Ptr α} : ptr.isSet = false ↔ ptr = .null := by
  cases ptr <;> simp [Ptr.isSet]

theorem Ptr.isSet_iff {ptr : Ptr α} : ptr.isSet = true ↔ ptr ≠ .null := by
  cases ptr <;> simp [Ptr.isSet]

/-- A pointer after its storage was released. -/
def Ptr.released : Ptr α → Ptr α
  | .null => .null
  | _ => .freed

theorem Ptr.exists_free {ptr : Ptr α} (h : ptr ≠ .freed) : ∃ ptr', ptr.free = some ptr' := by
  cases ptr with
  | null => exact ⟨_, rfl⟩
  | own a => exact ⟨_, rfl⟩
  | freed => exact absurd rfl h

theorem Ptr.released_of_free {ptr ptr' : Ptr α} (h : ptr.free = some ptr') :
    ptr' = ptr.released := by
  cases ptr with
  | null => exact (Option.some.inj h).symm
  | own a => exact (Option.some.inj h).symm
  | freed => simp [Ptr.free] at h

theorem Ptr.released_eq_freed {ptr : Ptr α} (h : ptr ≠ .null) : ptr.released = .freed := by
  cases ptr with
  | null => exact absurd rfl h
  | own a => rfl
  | freed => rfl

/-- Which of the allocations to come succeed. -/
abbrev Oracle := ℕ → Bool

namespace Oracle

/-- What is left of an oracle after `k` allocations. -/
def after (o : Oracle) (k : ℕ) : Oracle := fun i => o (k + i)

/-- The next `k` allocations succeed. -/
def Grants (o : Oracle) (k : ℕ) : Prop := ∀ i < k, o i = true

instance (o : Oracle) (k : ℕ) : Decidable (o.Grants k) :=
  inferInstanceAs (Decidable (∀ i < k, o i = true))

/-- Every allocation succeeds. -/
def always : Oracle := fun _ => true

@[simp] theorem after_zero (o : Oracle) : o.after 0 = o := by
  funext i
  rw [after, Nat.zero_add]

theorem after_after (o : Oracle) (j k : ℕ) : (o.after j).after k = o.after (j + k) := by
  funext i
  rw [after, after, after, Nat.add_assoc]

@[simp] theorem after_always (k : ℕ) : always.after k = always := rfl

theorem always_grants (k : ℕ) : always.Grants k := fun _ _ => rfl

theorem grants_zero (o : Oracle) : o.Grants 0 := fun i hi => absurd hi (Nat.not_lt_zero i)

/-- An oracle that refuses the first allocation grants none. -/
theorem Grants.eq_zero {o : Oracle} {k : ℕ} (h : o.Grants k) (h0 : o 0 = false) : k = 0 := by
  by_contra hk
  exact Bool.false_ne_true (h0.symm.trans (h 0 (Nat.pos_of_ne_zero hk)))

theorem grants_one {o : Oracle} : o.Grants 1 ↔ o 0 = true := by
  refine ⟨fun h => h 0 Nat.one_pos, fun h i hi => ?_⟩
  obtain rfl := Nat.lt_one_iff.mp hi
  exact h

theorem grants_add {o : Oracle} {j k : ℕ} :
    o.Grants (j + k) ↔ o.Grants j ∧ (o.after j).Grants k := by
  constructor
  · intro h
    exact ⟨fun i hi => h i (by omega), fun i hi => h (j + i) (by omega)⟩
  · rintro ⟨hj, hk⟩ i hi
    rcases Nat.lt_or_ge i j with hlt | hge
    · exact hj i hlt
    · obtain ⟨i, rfl⟩ := Nat.exists_eq_add_of_le hge
      exact hk i (by omega)

end Oracle

/-- A computation that takes its allocations from an oracle. -/
abbrev Heap := StateT Oracle Option

/-- One allocation, which says whether it succeeded. -/
def malloc : Heap Bool := fun o => some (o 0, o.after 1)

/-- What C does not define. -/
def undefined : Heap α := fun _ => none

/-- A step that allocates nothing. -/
def check (a : Option α) : Heap α := fun o => a.map fun a => (a, o)

theorem pure_apply (a : α) (o : Oracle) : (pure a : Heap α) o = some (a, o) := rfl

theorem malloc_apply (o : Oracle) : malloc o = some (o 0, o.after 1) := rfl

theorem check_some (a : α) : check (some a) = pure a := rfl

theorem bind_apply (m : Heap α) (f : α → Heap β) (o : Oracle) :
    (m >>= f) o = (m o).bind fun r => f r.1 r.2 := rfl

theorem bind_of_eq {m : Heap α} {a : α} {o o' : Oracle} (h : m o = some (a, o'))
    (f : α → Heap β) : (m >>= f) o = f a o' := by
  rw [bind_apply, h, Option.bind_some]

/-- A computation that goes through is one that went through each of its steps. -/
theorem bind_eq_some_iff {m : Heap α} {f : α → Heap β} {o : Oracle} {r : β × Oracle} :
    (m >>= f) o = some r ↔ ∃ a o', m o = some (a, o') ∧ f a o' = some r := by
  rw [bind_apply, Option.bind_eq_some_iff]
  exact Prod.exists

theorem check_eq_some_iff {a : Option α} {o : Oracle} {r : α × Oracle} :
    check a o = some r ↔ a = some r.1 ∧ o = r.2 := by
  rw [check, Option.map_eq_some_iff]
  constructor
  · rintro ⟨b, rfl, rfl⟩
    exact ⟨rfl, rfl⟩
  · rintro ⟨rfl, rfl⟩
    exact ⟨r.1, rfl, rfl⟩

/-- With `k` allocations granted, the computation takes these and gives `a`. -/
def Gives (m : Heap α) (k : ℕ) (a : α) : Prop :=
  ∀ o : Oracle, o.Grants k → m o = some (a, o.after k)

theorem Gives.pure (a : α) : Gives (Pure.pure a) 0 a := fun o _ => by
  rw [pure_apply, o.after_zero]

theorem Gives.malloc : Gives malloc 1 true := fun o h => by
  rw [malloc_apply, Oracle.grants_one.mp h]

theorem Gives.bind {m : Heap α} {f : α → Heap β} {j k : ℕ} {a : α} {b : β} (hm : Gives m j a)
    (hf : Gives (f a) k b) : Gives (m >>= f) (j + k) b := fun o h => by
  obtain ⟨hj, hk⟩ := Oracle.grants_add.mp h
  rw [bind_of_eq (hm o hj), hf _ hk, Oracle.after_after]

/-- What comes last allocates nothing. -/
theorem Gives.bind_pure {m : Heap α} {f : α → Heap β} {k : ℕ} {a : α} {b : β} (hm : Gives m k a)
    (hf : f a = Pure.pure b) : Gives (m >>= f) k b := fun o h => by
  rw [bind_of_eq (hm o h), hf, pure_apply]

theorem Gives.always {m : Heap α} {k : ℕ} {a : α} (h : Gives m k a) :
    m Oracle.always = some (a, Oracle.always) :=
  h _ (Oracle.always_grants k)

end Alloc
