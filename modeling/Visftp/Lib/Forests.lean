import Mathlib.Data.List.Nodup
import Mathlib.Logic.Function.Basic
import Mathlib.Logic.Relation
import Mathlib.Order.WellFounded

/-!
# Forests

A forest, as the list of the children of every node: no node is in two lists or twice in one, and
every way down ends. What is below two children of a node has nothing in common
(`Forest.disjoint`), so that what is done to one of them is nothing to the other. A forest is kept
when nodes are taken out of the lists (`Forest.sublist`), and when a node that is in none is put
into the list of one that is not below it (`Forest.append`).
-/

namespace Forests

open Relation

variable {ν : Type*} {kids kids' : ν → List ν} {m m' c c' x y : ν}

/-- The second node is somewhere below the first, or is it. -/
def Descends (kids : ν → List ν) : ν → ν → Prop := ReflTransGen fun m c => c ∈ kids m

/-- **A forest.** -/
structure Forest (kids : ν → List ν) : Prop where
  unique : ∀ m m' c, c ∈ kids m → c ∈ kids m' → m = m'
  nodup : ∀ m, (kids m).Nodup
  ends : WellFounded fun c m => c ∈ kids m

/-- From a node without children there is no way down. -/
theorem not_descends_of_nil (hc : kids c = []) (hm : c ≠ m) : ¬Descends kids c m := by
  intro hreach
  rcases ReflTransGen.cases_head hreach with heq | ⟨x, hx, -⟩
  · exact hm heq
  · simp [hc] at hx

theorem forest_nil : Forest fun _ : ν => [] where
  unique _ _ _ h := absurd h List.not_mem_nil
  nodup _ := List.nodup_nil
  ends := ⟨fun m => ⟨m, fun _ h => absurd h List.not_mem_nil⟩⟩

namespace Forest

/-- A node is not below its children. -/
theorem not_descends (h : Forest kids) (hc : c ∈ kids m) : ¬Descends kids c m := by
  intro hbelow
  have hup : ReflTransGen (fun c m => c ∈ kids m) m c := reflTransGen_swap.mp hbelow
  exact h.ends.transGen.irrefl.irrefl m (TransGen.tail' hup hc)

/-- Of two nodes above a third, one is above the other. -/
theorem comparable (h : Forest kids) (hx : Descends kids m x) (hx' : Descends kids m' x) :
    Descends kids m m' ∨ Descends kids m' m := by
  induction hx generalizing m' with
  | refl => exact .inr hx'
  | @tail y x hy hyx ih =>
    rcases ReflTransGen.cases_tail hx' with rfl | ⟨y', hy', hyx'⟩
    · exact .inl (hy.tail hyx)
    · obtain rfl := h.unique _ _ _ hyx hyx'
      exact ih hy'

/-- **What is below two children of a node** has nothing in common. -/
theorem disjoint (h : Forest kids) (hc : c ∈ kids m) (hc' : c' ∈ kids m) (hne : c ≠ c')
    (hx : Descends kids c x) : ¬Descends kids c' x := by
  have hbeside : ∀ {a b}, a ∈ kids m → b ∈ kids m → a ≠ b → ¬Descends kids a b := by
    intro a b ha hb hab hbelow
    rcases ReflTransGen.cases_tail hbelow with rfl | ⟨y, hy, hyb⟩
    · exact hab rfl
    · obtain rfl := h.unique _ _ _ hyb hb
      exact h.not_descends ha hy
  intro hx'
  rcases h.comparable hx hx' with hbelow | hbelow
  · exact hbeside hc hc' hne hbelow
  · exact hbeside hc' hc hne.symm hbelow

/-- Nodes are taken out of the lists. -/
theorem sublist (h : Forest kids) (hs : ∀ m, (kids' m).Sublist (kids m)) : Forest kids' where
  unique m m' c hc hc' := h.unique m m' c ((hs m).subset hc) ((hs m').subset hc')
  nodup m := (h.nodup m).sublist (hs m)
  ends := h.ends.mono fun _ m hc => (hs m).subset hc

variable [DecidableEq ν]

/-- **A node is put into a list** of one that is not below it. -/
theorem append (h : Forest kids) (hout : ∀ m, c ∉ kids m) (hm : ¬Descends kids c m) :
    Forest (Function.update kids m (kids m ++ [c])) := by
  have hmem : ∀ {x y}, y ∈ Function.update kids m (kids m ++ [c]) x ↔
      y ∈ kids x ∨ x = m ∧ y = c := by
    intro x y
    rcases eq_or_ne x m with rfl | hne
    · rw [Function.update_self]
      simp
    · rw [Function.update_of_ne hne]
      simp [hne]
  refine ⟨fun x x' y hy hy' => ?_, fun x => ?_, ⟨fun x => ?_⟩⟩
  · rcases hmem.mp hy with hx | ⟨rfl, rfl⟩ <;> rcases hmem.mp hy' with hx' | ⟨rfl, hyc⟩
    · exact h.unique x x' y hx hx'
    · exact absurd (hyc ▸ hx) (hout x)
    · exact absurd hx' (hout x')
    · rfl
  · rcases eq_or_ne x m with rfl | hne
    · rw [Function.update_self]
      exact List.nodup_append'.mpr ⟨h.nodup x, List.nodup_singleton c, by simpa using hout x⟩
    · rw [Function.update_of_ne hne]
      exact h.nodup x
  · -- what is below the node has the lists it had
    have hbelow : ∀ x, Descends kids c x →
        Acc (fun y x => y ∈ Function.update kids m (kids m ++ [c]) x) x := by
      intro x
      induction x using h.ends.induction with
      | _ x ih =>
        intro hx
        refine ⟨x, fun y hy => ?_⟩
        rcases hmem.mp hy with hyx | ⟨rfl, -⟩
        · exact ih y hyx (hx.tail hyx)
        · exact absurd hx hm
    induction x using h.ends.induction with
    | _ x ih =>
      refine ⟨x, fun y hy => ?_⟩
      rcases hmem.mp hy with hyx | ⟨-, rfl⟩
      · exact ih y hyx
      · exact hbelow y .refl

end Forest

end Forests
