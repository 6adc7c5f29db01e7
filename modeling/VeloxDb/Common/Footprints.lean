import Mathlib.Data.Set.Defs
import Mathlib.Data.List.Basic

/-!
# Steps with footprints

A state maps keys to values. Each kind of step has a footprint, the keys that it reads and writes:
it leaves the others as they are, and what it does to its own depends on nothing else. Two steps
whose footprints do not meet can be exchanged (`Local.exchange`). So if a group of steps of a run
meets none of the others before it, the run can be rearranged such that the group comes first
(`Local.Runs.first`), and a change of keys that a run does not touch can as well come after it
(`Local.Runs.change`).
-/

namespace Footprints

/-- Steps on maps that keep to their footprints. A step `x` from `K` to `K'` is made for one answer of
the program that makes it, so there may be none. -/
structure Local (κ υ ε : Type*) where
  /-- The states on which there are steps. -/
  Valid : (κ → υ) → Prop
  footprint : ε → Set κ
  Step : ε → (κ → υ) → (κ → υ) → Prop
  valid : ∀ {x K K'}, Step x K K' → Valid K'
  frame : ∀ {x K K'}, Step x K K' → ∀ k ∉ footprint x, K' k = K k
  transfer : ∀ {x K K' L}, Step x K K' → Valid L → (∀ k ∈ footprint x, L k = K k) →
    ∃ L', Step x L L' ∧ ∀ k ∈ footprint x, L' k = K' k

namespace Local

variable {κ υ ε : Type*} (D : Local κ υ ε)

/-- The footprints of two steps do not meet. -/
def Apart (x y : ε) : Prop := ∀ k ∈ D.footprint x, k ∉ D.footprint y

/-- The steps, one after the other. -/
def Runs : List ε → (κ → υ) → (κ → υ) → Prop
  | [], K, K' => K' = K
  | x :: xs, K, K' => ∃ M, D.Step x K M ∧ Runs xs M K'

variable {D} {x y : ε} {xs ys : List ε} {K K' K₁ K₂ L : κ → υ}

/-- **Steps whose footprints do not meet can be exchanged.** -/
theorem exchange (hK : D.Valid K) (hx : D.Step x K K₁) (hy : D.Step y K₁ K₂)
    (hxy : D.Apart x y) : ∃ K', D.Step y K K' ∧ D.Step x K' K₂ := by
  have hframe := D.frame hx
  have hframe' := D.frame hy
  obtain ⟨K', hy', hagree⟩ := D.transfer hy hK fun k hk => (hframe k fun hkx => hxy k hkx hk).symm
  have hfirst : ∀ k ∈ D.footprint x, K' k = K k := fun k hk => D.frame hy' k (hxy k hk)
  obtain ⟨M, hx', hagree'⟩ := D.transfer hx (D.valid hy') hfirst
  have hM : M = K₂ := by
    funext k
    by_cases hkx : k ∈ D.footprint x
    · rw [hagree' k hkx, hframe' k (hxy k hkx)]
    · rw [D.frame hx' k hkx]
      by_cases hky : k ∈ D.footprint y
      · exact hagree k hky
      · rw [D.frame hy' k hky, hframe' k hky, hframe k hkx]
  exact ⟨K', hy', hM ▸ hx'⟩

namespace Runs

/-- A run goes on where another has ended. -/
theorem append (h : D.Runs xs K K₁) (h' : D.Runs ys K₁ K₂) : D.Runs (xs ++ ys) K K₂ := by
  induction xs generalizing K with
  | nil =>
    cases h
    exact h'
  | cons x xs ih =>
    obtain ⟨M, hx, hxs⟩ := h
    exact ⟨M, hx, ih hxs⟩

/-- Every key that no step touches is as before. -/
theorem frame (h : D.Runs xs K K') {k : κ} (hk : ∀ x ∈ xs, k ∉ D.footprint x) : K' k = K k := by
  induction xs generalizing K with
  | nil => rw [h]
  | cons x xs ih =>
    obtain ⟨M, hx, hxs⟩ := h
    rw [ih hxs fun y hy => hk y (List.mem_cons_of_mem x hy), D.frame hx k (hk x List.mem_cons_self)]

/-- A first step that meets none of the others can as well come last. -/
theorem delay (hK : D.Valid K) (hx : D.Step x K K₁) (h : D.Runs xs K₁ K₂)
    (hapart : ∀ y ∈ xs, D.Apart x y) :
    ∃ M, D.Runs xs K M ∧ D.Step x M K₂ := by
  induction xs generalizing K K₁ with
  | nil =>
    cases h
    exact ⟨K, rfl, hx⟩
  | cons y xs ih =>
    obtain ⟨M, hy, hxs⟩ := h
    obtain ⟨K', hy', hx'⟩ := exchange hK hx hy (hapart y List.mem_cons_self)
    obtain ⟨N, hN, hlast⟩ := ih (D.valid hy') hx' hxs fun z hz => hapart z (List.mem_cons_of_mem y hz)
    exact ⟨N, ⟨K', hy', hN⟩, hlast⟩

/-- **A group of steps comes first**, if it meets none of the others that come before it. -/
theorem first (h : D.Runs xs K K') (hK : D.Valid K) (p : ε → Bool)
    (hapart : xs.Pairwise fun x y => p x = false → p y = true → D.Apart x y) :
    ∃ M, D.Runs (xs.filter p) K M ∧ D.Runs (xs.filter fun x => !p x) M K' := by
  induction xs generalizing K with
  | nil => exact ⟨K, rfl, h⟩
  | cons x xs ih =>
    obtain ⟨M, hx, hxs⟩ := h
    obtain ⟨hhead, htail⟩ := List.pairwise_cons.mp hapart
    obtain ⟨N, hgroup, hrest⟩ := ih hxs (D.valid hx) htail
    cases hp : p x with
    | true =>
      refine ⟨N, ?_, ?_⟩
      · rw [List.filter_cons_of_pos hp]
        exact ⟨M, hx, hgroup⟩
      · rwa [List.filter_cons_of_neg (by simp [hp])]
    | false =>
      have hlater : ∀ y ∈ xs.filter p, D.Apart x y := fun y hy =>
        hhead y (List.mem_of_mem_filter hy) hp (List.of_mem_filter hy)
      obtain ⟨M', hgroup', hx'⟩ := delay hK hx hgroup hlater
      refine ⟨M', ?_, ?_⟩
      · rwa [List.filter_cons_of_neg (by simp [hp])]
      · rw [List.filter_cons_of_pos (by simp [hp])]
        exact ⟨N, hx', hrest⟩

/-- **What a run does depends on the keys that it touches.** -/
theorem transfer (h : D.Runs xs K K') (hL : D.Valid L)
    (hagree : ∀ x ∈ xs, ∀ k ∈ D.footprint x, L k = K k) :
    ∃ L', D.Runs xs L L' ∧ ∀ x ∈ xs, ∀ k ∈ D.footprint x, L' k = K' k := by
  induction xs generalizing K L with
  | nil => exact ⟨L, rfl, fun x hx => absurd hx List.not_mem_nil⟩
  | cons x xs ih =>
    obtain ⟨M, hx, hxs⟩ := h
    obtain ⟨L₁, hx', hfirst⟩ := D.transfer hx hL (hagree x List.mem_cons_self)
    obtain ⟨L', hxs', hlast⟩ := ih hxs (D.valid hx') fun y hy k hk => by
      by_cases hkx : k ∈ D.footprint x
      · exact hfirst k hkx
      · rw [D.frame hx' k hkx, D.frame hx k hkx]
        exact hagree y (List.mem_cons_of_mem x hy) k hk
    refine ⟨L', ⟨L₁, hx', hxs'⟩, fun y hy k hk => ?_⟩
    by_cases hlater : ∃ z ∈ xs, k ∈ D.footprint z
    · obtain ⟨z, hz, hkz⟩ := hlater
      exact hlast z hz k hkz
    · -- only the first step touches the key
      have hnone : ∀ z ∈ xs, k ∉ D.footprint z := fun z hz hkz => hlater ⟨z, hz, hkz⟩
      rcases List.mem_cons.mp hy with rfl | hy
      · rw [hxs'.frame hnone, hxs.frame hnone, hfirst k hk]
      · exact absurd hk (hnone y hy)

/-- Keys that a run does not touch may be changed before it as well as after it. -/
theorem change (h : D.Runs xs K K') (hL : D.Valid L) {keys : Set κ}
    (hfree : ∀ k ∈ keys, ∀ x ∈ xs, k ∉ D.footprint x) (hkeep : ∀ k ∉ keys, L k = K k) :
    ∃ L', D.Runs xs L L' ∧ (∀ k ∈ keys, L' k = L k) ∧ ∀ k ∉ keys, L' k = K' k := by
  obtain ⟨L', hruns, hagree⟩ := h.transfer hL fun x hx k hkx =>
    hkeep k fun hk => hfree k hk x hx hkx
  refine ⟨L', hruns, fun k hk => hruns.frame (hfree k hk), fun k hk => ?_⟩
  by_cases htouched : ∃ x ∈ xs, k ∈ D.footprint x
  · obtain ⟨x, hx, hkx⟩ := htouched
    exact hagree x hx k hkx
  · have hnone : ∀ x ∈ xs, k ∉ D.footprint x := fun x hx hkx => htouched ⟨x, hx, hkx⟩
    rw [hruns.frame hnone, hkeep k hk, h.frame hnone]

end Runs

end Local

end Footprints
