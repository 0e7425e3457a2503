import Mathlib.Data.List.Basic

/-!
# Cutting a list in two

`cut c s` is what stands before and behind the first `c` of a list. Cutting and joining are inverse
to each other where nothing before the cut is the separator (`cut_eq_some_iff`), so a format in
which parts are put together with separators is read back by cutting.
-/

namespace Cuts

variable {α : Type*} [DecidableEq α] {c : α} {s l r : List α}

/-- What stands before and behind the first `c`. -/
def cut (c : α) : List α → Option (List α × List α)
  | [] => none
  | a :: s => if a = c then some ([], s) else (cut c s).map fun p => (a :: p.1, p.2)

theorem cut_eq_none_iff : cut c s = none ↔ c ∉ s := by
  induction s with
  | nil => simp [cut]
  | cons a s ih =>
    rw [cut]
    split
    · next h => simp [h]
    · next h => simp [ih, Ne.symm h]

/-- **Cutting is the inverse of joining.** -/
theorem cut_eq_some_iff : cut c s = some (l, r) ↔ s = l ++ c :: r ∧ c ∉ l := by
  induction s generalizing l with
  | nil => simp [cut]
  | cons a s ih =>
    rw [cut]
    split
    · next h =>
      subst h
      constructor
      · intro heq
        obtain ⟨rfl, rfl⟩ := Prod.mk.inj (Option.some.inj heq)
        exact ⟨rfl, List.not_mem_nil⟩
      · rintro ⟨hs, hl⟩
        cases l with
        | nil => rw [(List.cons.inj hs).2]
        | cons b l => exact absurd ((List.cons.inj hs).1 ▸ List.mem_cons_self) hl
    · next h =>
      rw [Option.map_eq_some_iff]
      constructor
      · rintro ⟨⟨l', r'⟩, hcut, heq⟩
        obtain ⟨rfl, rfl⟩ := Prod.mk.inj heq
        obtain ⟨rfl, hl⟩ := ih.mp hcut
        exact ⟨rfl, by simp [hl, Ne.symm h]⟩
      · rintro ⟨hs, hl⟩
        cases l with
        | nil => exact absurd (List.cons.inj hs).1 h
        | cons b l =>
          obtain ⟨rfl, rfl⟩ := List.cons.inj hs
          exact ⟨(l, r), ih.mpr ⟨rfl, fun hmem => hl (List.mem_cons_of_mem _ hmem)⟩, rfl⟩

theorem cut_append (h : c ∉ l) (r : List α) : cut c (l ++ c :: r) = some (l, r) :=
  cut_eq_some_iff.mpr ⟨rfl, h⟩

end Cuts
