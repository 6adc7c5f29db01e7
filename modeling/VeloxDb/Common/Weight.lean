import Mathlib.Algebra.BigOperators.Group.Finset.Piecewise
import Mathlib.Algebra.GroupWithZero.Nat
import Mathlib.Algebra.Order.BigOperators.Group.List
import Mathlib.Data.List.AList

/-!
# Weights of association lists

Every key-value pair has a weight, and the weight of a list is the sum over its pairs. Inserting and
erasing change it by the weights of the pairs concerned, and it only grows with what the list maps
its keys to (`weight_le_of_lookup`).
-/

namespace Keyed

variable {α β : Type} [DecidableEq α] (w : α → β → ℕ)

/-- The weights of all entries together. -/
def weight (l : List (Σ _ : α, β)) : ℕ := (l.map fun p => w p.1 p.2).sum

variable {w} {l l' : List (Σ _ : α, β)} {a : α} {b : β}

omit [DecidableEq α] in
/-- No entry weighs nothing. -/
@[simp] theorem weight_nil : weight w [] = 0 := rfl

omit [DecidableEq α] in
/-- The first entry and the rest. -/
@[simp] theorem weight_cons (p : Σ _ : α, β) : weight w (p :: l) = w p.1 p.2 + weight w l := rfl

omit [DecidableEq α] in
/-- The entries of one list and of the other. -/
theorem weight_append : weight w (l ++ l') = weight w l + weight w l' := by
  simp [weight]

/-- A pair that is in the list is its weight away from the list without it. -/
theorem weight_kerase (h : l.dlookup a = some b) :
    w a b + weight w (l.kerase a) = weight w l := by
  induction l with
  | nil => simp at h
  | cons p t ih =>
    by_cases hp : a = p.1
    · subst hp
      rw [List.kerase_cons_eq rfl]
      obtain ⟨p1, p2⟩ := p
      rw [List.dlookup_cons_eq, Option.some.injEq] at h
      rw [h]
      rfl
    · rw [List.kerase_cons_ne hp]
      rw [List.dlookup_cons_ne _ _ hp] at h
      have hrec := ih h
      simp only [weight_cons]
      omega

/-- A list whose keys all occur in another one, with at least their weight, is no heavier. -/
theorem weight_le_of_lookup {γ : Type} {v : α → γ → ℕ} {l' : List (Σ _ : α, γ)} (hl : l.NodupKeys)
    (h : ∀ a b, l.dlookup a = some b → ∃ c, l'.dlookup a = some c ∧ w a b ≤ v a c) :
    weight w l ≤ weight v l' := by
  induction l generalizing l' with
  | nil => exact Nat.zero_le _
  | cons p t ih =>
    obtain ⟨a, b⟩ := p
    obtain ⟨ha, ht⟩ := List.nodupKeys_cons.mp hl
    obtain ⟨c, hc, hle⟩ := h a b (List.dlookup_cons_eq t a b)
    have hrec : weight w t ≤ weight v (l'.kerase a) := by
      refine ih ht fun x y hxy => ?_
      have hxa : x ≠ a := by
        rintro rfl
        exact ha (List.dlookup_isSome.mp (by simp [hxy]))
      rw [List.dlookup_kerase_ne hxa]
      exact h x y (by rw [List.dlookup_cons_ne t _ hxa]; exact hxy)
    have hsplit := weight_kerase (w := v) hc
    simp only [weight_cons]
    omega

/-- Changing one term of a sum. -/
theorem sum_update_add {ι : Type*} [DecidableEq ι] {s : Finset ι} {i : ι} (hi : i ∈ s) (f : ι → ℕ)
    (x : ℕ) : ∑ j ∈ s, Function.update f i x j + f i = ∑ j ∈ s, f j + x := by
  rw [Finset.sum_update_of_mem hi, ← Finset.add_sum_erase _ f hi, Finset.sdiff_singleton_eq_erase]
  omega

/-- Changing one member of a family changes a sum over it by that member. -/
theorem sum_apply_update {ι α : Type*} [Fintype ι] [DecidableEq ι] (f : α → ℕ) (g : ι → α) (i : ι)
    (a : α) : ∑ j, f (Function.update g i a j) + f (g i) = ∑ j, f (g j) + f a := by
  have hcomp : ∀ j, f (Function.update g i a j) = Function.update (fun j => f (g j)) i (f a) j :=
    fun j => congrFun (Function.comp_update f g i a) j
  simp only [hcomp]
  exact sum_update_add (Finset.mem_univ i) (fun j => f (g j)) (f a)

end Keyed
