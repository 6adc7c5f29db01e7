import Mathlib.Data.Nat.Notation
import Mathlib.Data.Sum.Basic
import Mathlib.Tactic.Basic

/-!
# Loops that leave through a result

A source loop `for (;;) { … return r; … }` is a `step` that either goes round again with a new loop
state or leaves with a result. `runUntil` runs such a step. It asks for a measure that every further
round lowers, so it is total, and it is structurally recursive on that measure, so it evaluates.
`runUntil_eq` is its unfolding, `runUntil_induction` its invariant rule and `runUntil_related` the
rule for two loops that go round together.
-/

namespace Loop

variable {σ ρ : Type*}

/-- Run at most `fuel` rounds of `step`. -/
def runFor (step : σ → σ ⊕ ρ) : ℕ → σ → Option ρ
  | 0, _ => none
  | fuel + 1, s =>
    match step s with
    | .inl s' => runFor step fuel s'
    | .inr r => some r

/-- Every further round of `step` lowers the measure `μ`. -/
def Lowers (step : σ → σ ⊕ ρ) (μ : σ → ℕ) : Prop :=
  ∀ s s', step s = .inl s' → μ s' < μ s

variable {step : σ → σ ⊕ ρ} {μ : σ → ℕ}

/-- A loop whose measure is lowered by every round leaves within `μ s + 1` rounds. -/
theorem runFor_isSome (hμ : Lowers step μ) :
    ∀ (fuel : ℕ) (s : σ), μ s < fuel → (runFor step fuel s).isSome := by
  intro fuel
  induction fuel with
  | zero => exact fun s hs => absurd hs (Nat.not_lt_zero _)
  | succ fuel ih =>
    intro s hs
    simp only [runFor]
    cases hstep : step s with
    | inl s' =>
      have hlt := hμ s s' hstep
      exact ih s' (by omega)
    | inr r => rfl

/-- More rounds than needed do not change the result. -/
theorem runFor_mono {fuel fuel' : ℕ} (hle : fuel ≤ fuel') {s : σ} {r : ρ}
    (h : runFor step fuel s = some r) : runFor step fuel' s = some r := by
  induction fuel generalizing fuel' s with
  | zero => simp [runFor] at h
  | succ fuel ih =>
    obtain ⟨f, rfl⟩ : ∃ f, fuel' = f + 1 := ⟨fuel' - 1, by omega⟩
    simp only [runFor] at h ⊢
    cases hstep : step s with
    | inl s' =>
      rw [hstep] at h
      exact ih (by omega) h
    | inr r' =>
      rw [hstep] at h
      exact h

/-- Run `step` until it leaves with a result. -/
def runUntil (step : σ → σ ⊕ ρ) (μ : σ → ℕ) (hμ : Lowers step μ) (s : σ) : ρ :=
  (runFor step (μ s + 1) s).get (runFor_isSome hμ _ s (Nat.lt_succ_self _))

/-- One round of the loop. -/
theorem runUntil_eq (hμ : Lowers step μ) (s : σ) :
    runUntil step μ hμ s =
      match step s with
      | .inl s' => runUntil step μ hμ s'
      | .inr r => r := by
  rw [runUntil]
  cases hstep : step s with
  | inr r => simp [runFor, hstep]
  | inl s' =>
    have hlt := hμ s s' hstep
    have hrun : runFor step (μ s + 1) s = runFor step (μ s) s' := by simp [runFor, hstep]
    have hsome : runFor step (μ s) s' = some (runUntil step μ hμ s') :=
      runFor_mono (by omega : μ s' + 1 ≤ μ s) (Option.some_get _).symm
    simp only [hrun, hsome, Option.get_some]

theorem runUntil_of_inl (hμ : Lowers step μ) {s s' : σ} (h : step s = .inl s') :
    runUntil step μ hμ s = runUntil step μ hμ s' := by
  rw [runUntil_eq, h]

theorem runUntil_of_inr (hμ : Lowers step μ) {s : σ} {r : ρ} (h : step s = .inr r) :
    runUntil step μ hμ s = r := by
  rw [runUntil_eq, h]

/-- **Invariant rule.** What a round preserves, and what a leaving round turns into `Q`, makes every
run end in `Q`. -/
theorem runUntil_induction (hμ : Lowers step μ) {I : σ → Prop} {Q : ρ → Prop}
    (hround : ∀ s s', I s → step s = .inl s' → I s')
    (hleave : ∀ s r, I s → step s = .inr r → Q r) {s : σ} (hs : I s) :
    Q (runUntil step μ hμ s) := by
  induction hn : μ s using Nat.strongRecOn generalizing s with
  | ind n ih =>
    cases hstep : step s with
    | inr r =>
      rw [runUntil_of_inr hμ hstep]
      exact hleave s r hs hstep
    | inl s' =>
      rw [runUntil_of_inl hμ hstep]
      exact ih (μ s') (hn ▸ hμ s s' hstep) (hround s s' hs hstep) rfl

/-- **Two loops in step.** If related states go round together to related states, and leave together
with related results, then the results of the loops are related. -/
theorem runUntil_related {τ υ : Type*} {step' : τ → τ ⊕ υ} {μ' : τ → ℕ} (hμ : Lowers step μ)
    (hμ' : Lowers step' μ') {R : σ → τ → Prop} {Q : ρ → υ → Prop}
    (hround : ∀ s t, R s t → Sum.LiftRel R Q (step s) (step' t)) {s : σ} {t : τ} (hst : R s t) :
    Q (runUntil step μ hμ s) (runUntil step' μ' hμ' t) := by
  induction hn : μ s using Nat.strongRecOn generalizing s t with
  | ind n ih =>
    have hlift := hround s t hst
    cases hs : step s with
    | inr r =>
      cases ht : step' t with
      | inl t' => simp [hs, ht] at hlift
      | inr r' =>
        rw [runUntil_of_inr hμ hs, runUntil_of_inr hμ' ht]
        simpa [hs, ht] using hlift
    | inl s' =>
      cases ht : step' t with
      | inr r' => simp [hs, ht] at hlift
      | inl t' =>
        rw [runUntil_of_inl hμ hs, runUntil_of_inl hμ' ht]
        exact ih (μ s') (hn ▸ hμ s s' hs) (by simpa [hs, ht] using hlift) rfl

end Loop
