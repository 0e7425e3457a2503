import Mathlib.Data.List.Infix
import Mathlib.Logic.Relation

/-!
# Histories and what always holds of them

A *history* is the list of the events a system has gone through, newest first, so that recording
an event is `List.cons` and a function of the history is a recursion on it. `Always P h` says that
every event of `h` satisfied `P` with respect to the history before it. Both what is asked of an
environment and what is promised of a system take this form.

The rule of the module is `Relation.ReflTransGen.assume_guarantee`: a step relation whose states
carry a history, a state invariant, an assumption on events and a guarantee on events. When every
step keeps the invariant and the guarantee as long as the assumption holds of the new history, the
guarantee holds of every run whose history meets the assumption.

## Main results

* `Always.suffix`, `Always.and`, `Always.mono`, `always_iff` — the algebra of `Always`
* `Relation.ReflTransGen.assume_guarantee` — the run rule
-/

namespace Histories

variable {ε : Type*} {P Q : List ε → ε → Prop}

/-- Every event of the history satisfies `P` with respect to the history before it. -/
def Always (P : List ε → ε → Prop) : List ε → Prop
  | [] => True
  | e :: h => P h e ∧ Always P h

@[simp] theorem always_nil : Always P [] := trivial

@[simp] theorem always_cons {e : ε} {h : List ε} : Always P (e :: h) ↔ P h e ∧ Always P h := Iff.rfl

theorem always_of_forall (hP : ∀ h e, P h e) : ∀ h, Always P h
  | [] => trivial
  | e :: h => ⟨hP h e, always_of_forall hP h⟩

instance Always.decidable [∀ h e, Decidable (P h e)] : ∀ h, Decidable (Always P h)
  | [] => isTrue trivial
  | _ :: h => @instDecidableAnd _ _ _ (Always.decidable h)

theorem Always.suffix {h h' : List ε} (hs : h <:+ h') (H : Always P h') : Always P h := by
  obtain ⟨new, rfl⟩ := hs
  induction new with
  | nil => exact H
  | cons e new ih => exact ih H.2

/-- Events that satisfy `P` whatever came before them. -/
theorem Always.append {h : List ε} (H : Always P h) :
    ∀ {new : List ε}, (∀ e ∈ new, ∀ h, P h e) → Always P (new ++ h)
  | [], _ => H
  | e :: new, hnew => ⟨hnew e List.mem_cons_self (new ++ h),
      H.append fun e' he' => hnew e' (List.mem_cons_of_mem e he')⟩

theorem always_append_iff {h new : List ε} (hnew : ∀ e ∈ new, ∀ h, P h e) :
    Always P (new ++ h) ↔ Always P h :=
  ⟨fun H => H.suffix (List.suffix_append new h), fun H => H.append hnew⟩

/-- An event of the history satisfied `P` when it happened. -/
theorem Always.exists_of_mem {e : ε} {h : List ε} (H : Always P h) (he : e ∈ h) :
    ∃ past, P past e := by
  obtain ⟨new, past, rfl⟩ := List.append_of_mem he
  exact ⟨past, (H.suffix (List.suffix_append new (e :: past))).1⟩

theorem Always.mono (hPQ : ∀ h e, P h e → Q h e) : ∀ {h : List ε}, Always P h → Always Q h
  | [], _ => trivial
  | _ :: _, H => ⟨hPQ _ _ H.1, H.2.mono hPQ⟩

theorem Always.and : ∀ {h : List ε}, Always P h → Always Q h → Always (fun h e => P h e ∧ Q h e) h
  | [], _, _ => trivial
  | _ :: _, H, H' => ⟨⟨H.1, H'.1⟩, H.2.and H'.2⟩

theorem always_and {h : List ε} :
    Always (fun h e => P h e ∧ Q h e) h ↔ Always P h ∧ Always Q h :=
  ⟨fun H => ⟨H.mono fun _ _ => And.left, H.mono fun _ _ => And.right⟩, fun H => H.1.and H.2⟩

/-- `Always` read as a statement about every event and the events before it. -/
theorem always_iff {h : List ε} :
    Always P h ↔ ∀ new e past, h = new ++ e :: past → P past e := by
  constructor
  · rintro H new e past rfl
    exact (H.suffix (List.suffix_append new (e :: past))).1
  · intro H
    induction h with
    | nil => trivial
    | cons e h ih =>
      exact ⟨H [] e h rfl, ih fun new e' past hh => H (e :: new) e' past (by simp [hh])⟩

end Histories

open Histories in
/-- **The run rule.** The history of a state only grows along `step`; as long as the assumption
`A` holds of the history reached, a step keeps the invariant `I` and the guarantee `G`. -/
theorem Relation.ReflTransGen.assume_guarantee {σ ε : Type*} {step : σ → σ → Prop}
    {hist : σ → List ε} {A G : List ε → ε → Prop} {I : σ → Prop}
    (grow : ∀ ⦃s s'⦄, step s s' → hist s <:+ hist s')
    (keep : ∀ ⦃s s'⦄, step s s' → Always A (hist s') → I s → Always G (hist s) →
      I s' ∧ Always G (hist s'))
    {s₀ s : σ} (hrun : Relation.ReflTransGen step s₀ s) (h₀ : I s₀) (hG : Always G (hist s₀))
    (hA : Always A (hist s)) : I s ∧ Always G (hist s) := by
  induction hrun with
  | refl => exact ⟨h₀, hG⟩
  | tail _ hstep ih =>
    obtain ⟨hI, hG'⟩ := ih (hA.suffix (grow hstep))
    exact keep hstep hA hI hG'
