import Mathlib.Data.List.Basic

/-!
# Runs of a state machine

A machine takes one step for each event. `AllSteps P s events` says that every step of the run from
`s` meets `P`, a condition on the state before it and the event. What such steps keep holds at the
end of the run (`run_invariant`).
-/

namespace Machine

variable {σ ε : Type*}

/-- The state after a list of events. -/
def run (step : σ → ε → σ) (s : σ) (events : List ε) : σ := events.foldl step s

/-- Every step of the run meets `P`. -/
def AllSteps (step : σ → ε → σ) (P : σ → ε → Prop) : σ → List ε → Prop
  | _, [] => True
  | s, e :: events => P s e ∧ AllSteps step P (step s e) events

instance decidableAllSteps (step : σ → ε → σ) (P : σ → ε → Prop) [∀ s e, Decidable (P s e)] :
    ∀ s events, Decidable (AllSteps step P s events)
  | _, [] => .isTrue trivial
  | s, e :: events => @instDecidableAnd _ _ _ (decidableAllSteps step P (step s e) events)

variable {step : σ → ε → σ} {P : σ → ε → Prop}

/-- No event, no change. -/
@[simp] theorem run_nil (s : σ) : run step s [] = s := rfl

/-- The first event and the rest. -/
@[simp] theorem run_cons (s : σ) (e : ε) (events : List ε) :
    run step s (e :: events) = run step (step s e) events := rfl

/-- A run goes on where another has ended. -/
theorem run_append (s : σ) (events more : List ε) :
    run step s (events ++ more) = run step (run step s events) more := List.foldl_append

/-- **Invariant rule.** What every step that meets `P` keeps, a run of such steps keeps. -/
theorem run_invariant {I : σ → Prop} (hstep : ∀ s e, I s → P s e → I (step s e)) {s : σ}
    {events : List ε} (hs : I s) (hall : AllSteps step P s events) : I (run step s events) := by
  induction events generalizing s with
  | nil => exact hs
  | cons e events ih =>
    obtain ⟨he, hrest⟩ := hall
    exact ih (hstep s e hs he) hrest

/-- The steps of a first part of the run. -/
theorem AllSteps.of_prefix {s : σ} {events before : List ε} (hall : AllSteps step P s events)
    (hbefore : before <+: events) : AllSteps step P s before := by
  induction before generalizing s events with
  | nil => trivial
  | cons e before ih =>
    obtain ⟨more, rfl⟩ := hbefore
    exact ⟨hall.1, ih hall.2 ⟨more, rfl⟩⟩

/-- Steps that meet a stronger condition. -/
theorem AllSteps.imp {Q : σ → ε → Prop} {s : σ} {events : List ε} (hall : AllSteps step P s events)
    (h : ∀ s e, P s e → Q s e) : AllSteps step Q s events := by
  induction events generalizing s with
  | nil => trivial
  | cons e events ih => exact ⟨h s e hall.1, ih hall.2⟩

/-- A condition on the events alone. -/
theorem allSteps_of_forall {Q : ε → Prop} {s : σ} {events : List ε} (h : ∀ e ∈ events, Q e) :
    AllSteps step (fun _ => Q) s events := by
  induction events generalizing s with
  | nil => trivial
  | cons e events ih => exact ⟨h e List.mem_cons_self, ih fun e he => h e (List.mem_cons_of_mem _ he)⟩

/-- Every step meets the trivial condition. -/
theorem allSteps_true (s : σ) (events : List ε) : AllSteps step (fun _ _ => True) s events := by
  induction events generalizing s with
  | nil => trivial
  | cons e events ih => exact ⟨trivial, ih (step s e)⟩

/-- A history that every step extends can be followed along a run: where each step from a state with a
history `h` leads to one with a later history, the states of a run have histories that follow one
another. -/
theorem exists_history {η : Type*} {I : σ → η → Prop} {R : η → η → Prop} [Std.Refl R]
    (hstep : ∀ s h e, I s h → ∃ h', R h h' ∧ I (step s e) h') {s : σ} {h : η} (hs : I s h)
    (events : List ε) :
    ∃ hist : ℕ → η, (∀ n, R (hist n) (hist (n + 1))) ∧
      ∀ n, I (run step s (events.take n)) (hist n) := by
  have hnext : ∀ n h, I (run step s (events.take n)) h →
      ∃ h', R h h' ∧ I (run step s (events.take (n + 1))) h' := by
    intro n h hn
    cases he : events[n]? with
    | none =>
      have hlen := List.getElem?_eq_none_iff.mp he
      rw [List.take_of_length_le hlen] at hn
      rw [List.take_of_length_le (Nat.le_succ_of_le hlen)]
      exact ⟨h, Std.Refl.refl h, hn⟩
    | some e =>
      rw [List.take_add_one, he, run_append]
      exact hstep _ h e hn
  choose! next hR hI using hnext
  have hall : ∀ n, I (run step s (events.take n)) (n.rec h fun k hk => next k hk) := by
    intro n
    induction n with
    | zero => exact hs
    | succ n ih => exact hI n _ ih
  exact ⟨fun n => n.rec h fun k hk => next k hk, fun n => hR n _ (hall n), hall⟩

end Machine
