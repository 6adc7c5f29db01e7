import VeloxDb.Common.Reservation

/-!
# Threads that can always finish

A sound program takes no lock while it has one, so a thread that has a lock never waits for another,
and threads cannot wait for each other in a circle. Left alone, a thread gets on until it has
returned or stands before a lock that another one has (`exists_halted`); in both cases it has no lock
itself. So the threads can be let on one by one until none has a lock, and then, again one by one,
until all have returned.
-/

namespace Reservation

namespace Threads

variable {ι S α τ κ : Type} [DecidableEq τ] [DecidableEq ι] {limit : ℕ} {prog : κ → Prog ι S α}

/-- The threads take turns in this order, and no attempt to exchange the counter fails without
reason. -/
def play (limit : ℕ) (prog : κ → Prog ι S α) (m : Threads τ κ ι S α) (turns : List τ) :
    Threads τ κ ι S α :=
  Machine.run (step limit prog) m (turns.map (.turn · false))

/-- The thread has returned, or stands before a lock that is taken. -/
def Halted (m : Threads τ κ ι S α) (t : τ) : Prop :=
  (∃ last, m.tasks t = .idle last) ∨
    ∃ i next, m.tasks t = .running (.lock i next) ∧ m.owner i ≠ none

variable {m : Threads τ κ ι S α} {t s : τ}

/-- More turns follow the others. -/
theorem play_append (m : Threads τ κ ι S α) (turns more : List τ) :
    m.play limit prog (turns ++ more) = (m.play limit prog turns).play limit prog more := by
  rw [play, List.map_append, Machine.run_append]
  rfl

/-! ## One thread alone -/

section Alone

/-- The thread comes to a halt when it takes turns alone. -/
def Halts (limit : ℕ) (prog : κ → Prog ι S α) (m : Threads τ κ ι S α) (t : τ) : Prop :=
  ∃ n, (m.play limit prog (List.replicate n t)).Halted t

/-- A thread that halts after a turn halts. -/
theorem Halts.of_step (h : Halts limit prog (m.step limit prog (.turn t false)) t) :
    Halts limit prog m t := by
  obtain ⟨n, hn⟩ := h
  exact ⟨n + 1, hn⟩

/-- A thread that has halted needs no turn. -/
theorem Halted.halts (h : m.Halted t) : Halts limit prog m t := ⟨0, h⟩

omit [DecidableEq ι] in
/-- The thread has its new task. -/
theorem withTask_self (m : Threads τ κ ι S α) (t : τ) (task : Task ι S α) :
    (m.withTask t task).tasks t = task := Function.update_self ..

/-- The loop of a reservation ends after two rounds. -/
theorem halts_reserving {n current : ℕ} {next : Bool → Prog ι S α}
    (ih : ∀ b (m : Threads τ κ ι S α), m.tasks t = .running (next b) → Halts limit prog m t)
    (htask : m.tasks t = .reserving n current next) : Halts limit prog m t := by
  -- a round that has read the counter as it is
  have hround : ∀ m : Threads τ κ ι S α, m.tasks t = .reserving n m.used next →
      Halts limit prog m t := by
    intro m htask
    refine .of_step ?_
    rw [step, htask]
    show Halts limit prog (m.reserveTurn limit t false n m.used next) t
    rw [reserveTurn]
    split_ifs with hfull hswap
    · exact ih false _ (withTask_self ..)
    · exact ih true _ (withTask_self ..)
    · exact absurd ⟨rfl, rfl⟩ hswap
  refine .of_step ?_
  rw [step, htask]
  show Halts limit prog (m.reserveTurn limit t false n current next) t
  rw [reserveTurn]
  split_ifs with hfull hswap
  · exact ih false _ (withTask_self ..)
  · exact ih true _ (withTask_self ..)
  · exact hround _ (withTask_self ..)

/-- The loop of a release ends after two rounds. -/
theorem halts_releasing {n current : ℕ} {next : Prog ι S α}
    (ih : ∀ m : Threads τ κ ι S α, m.tasks t = .running next → Halts limit prog m t)
    (htask : m.tasks t = .releasing n current next) : Halts limit prog m t := by
  have hround : ∀ m : Threads τ κ ι S α, m.tasks t = .releasing n m.used next →
      Halts limit prog m t := by
    intro m htask
    refine .of_step ?_
    rw [step, htask]
    show Halts limit prog (m.releaseTurn t false n m.used next) t
    rw [releaseTurn]
    by_cases hzero : m.used = 0
    · rw [if_pos hzero]
      exact ih _ (withTask_self ..)
    · rw [if_neg hzero, if_pos ⟨rfl, rfl⟩]
      exact ih _ (withTask_self ..)
  refine .of_step ?_
  rw [step, htask]
  show Halts limit prog (m.releaseTurn t false n current next) t
  rw [releaseTurn]
  by_cases hzero : current = 0
  · rw [if_pos hzero]
    exact ih _ (withTask_self ..)
  · rw [if_neg hzero]
    by_cases hswap : m.used = current ∧ false = false
    · rw [if_pos hswap]
      exact ih _ (withTask_self ..)
    · rw [if_neg hswap]
      exact hround _ (withTask_self ..)

/-- **A running program halts** if its thread is given turns, whatever it is. -/
theorem halts_running (p : Prog ι S α) :
    ∀ m : Threads τ κ ι S α, m.tasks t = .running p → Halts limit prog m t := by
  induction p with
  | done result =>
    intro m htask
    refine .of_step (Halted.halts (.inl ⟨some result, ?_⟩))
    rw [step, htask]
    exact withTask_self ..
  | lock i next ih =>
    intro m htask
    cases howner : m.owner i with
    | some s =>
      refine Halted.halts (.inr ⟨i, next, htask, ?_⟩)
      rw [howner]
      exact Option.some_ne_none s
    | none =>
      refine .of_step (ih _ ?_)
      rw [step, htask]
      simp only [runTurn, howner]
      exact withTask_self ..
  | unlock i next ih =>
    intro m htask
    refine .of_step (ih _ ?_)
    rw [step, htask]
    exact withTask_self ..
  | access i write next ih =>
    intro m htask
    refine .of_step (ih (m.shards i) _ ?_)
    rw [step, htask]
    exact withTask_self ..
  | reserve n next ih =>
    intro m htask
    refine .of_step ?_
    rw [step, htask]
    simp only [runTurn]
    split_ifs
    · exact ih true _ (withTask_self ..)
    · exact halts_reserving ih (withTask_self ..)
  | release n next ih =>
    intro m htask
    refine .of_step ?_
    rw [step, htask]
    simp only [runTurn]
    split_ifs
    · exact ih _ (withTask_self ..)
    · exact halts_releasing ih (withTask_self ..)
  | count n next ih =>
    intro m htask
    refine .of_step (ih _ ?_)
    rw [step, htask]
    exact withTask_self ..

/-- **A thread alone comes to a halt.** -/
theorem exists_halted (m : Threads τ κ ι S α) (t : τ) : Halts limit prog m t := by
  cases htask : m.tasks t with
  | idle last => exact Halted.halts (.inl ⟨last, htask⟩)
  | running p => exact halts_running p m htask
  | reserving n current next => exact halts_reserving (fun b => halts_running (next b)) htask
  | releasing n current next => exact halts_releasing (halts_running next) htask

/-- What another thread may notice of it: its own task stays, and it does not come to a lock. -/
def Unmoved (s : τ) (m m' : Threads τ κ ι S α) : Prop :=
  m'.tasks s = m.tasks s ∧ ∀ i, m'.owner i = some s → m.owner i = some s

/-- A turn of one thread leaves the others' tasks alone. -/
theorem unmoved_step (hst : s ≠ t) (m : Threads τ κ ι S α) (spurious : Bool) :
    Unmoved s m (m.step limit prog (.turn t spurious)) := by
  have htasks : ∀ (m : Threads τ κ ι S α) (task : Task ι S α),
      (m.withTask t task).tasks s = m.tasks s := fun m task => Function.update_of_ne hst ..
  have hsame : ∀ i, m.owner i = some s → m.owner i = some s := fun _ h => h
  rw [step]
  split
  · exact ⟨rfl, hsame⟩
  · next p htask =>
    cases p with
    | done => exact ⟨htasks .., hsame⟩
    | lock i next =>
      rw [runTurn]
      split
      · exact ⟨rfl, hsame⟩
      · refine ⟨htasks .., fun j hj => ?_⟩
        by_cases hji : j = i
        · subst hji
          replace hj : Function.update m.owner j (some t) j = some s := hj
          rw [Function.update_self] at hj
          exact absurd (Option.some.inj hj).symm hst
        · replace hj : Function.update m.owner i (some t) j = some s := hj
          rwa [Function.update_of_ne hji] at hj
    | unlock i next =>
      refine ⟨htasks .., fun j hj => ?_⟩
      replace hj : Function.update m.owner i none j = some s := hj
      by_cases hji : j = i
      · subst hji
        rw [Function.update_self] at hj
        cases hj
      · rwa [Function.update_of_ne hji] at hj
    | access => exact ⟨htasks .., hsame⟩
    | reserve =>
      rw [runTurn]
      split_ifs <;> exact ⟨htasks .., hsame⟩
    | release =>
      rw [runTurn]
      split_ifs <;> exact ⟨htasks .., hsame⟩
    | count => exact ⟨htasks .., hsame⟩
  · rw [reserveTurn]
    split_ifs <;> exact ⟨htasks .., hsame⟩
  · rw [releaseTurn]
    split_ifs <;> exact ⟨htasks .., hsame⟩

/-- Turns of one thread leave the others' tasks alone. -/
theorem unmoved_play (hst : s ≠ t) (m : Threads τ κ ι S α) (n : ℕ) :
    Unmoved s m (m.play limit prog (List.replicate n t)) := by
  induction n generalizing m with
  | zero => exact ⟨rfl, fun _ h => h⟩
  | succ n ih =>
    have hfirst : Unmoved s m (m.step limit prog (.turn t false)) := unmoved_step hst m false
    have hrest := ih (m.step limit prog (.turn t false))
    exact ⟨hrest.1.trans hfirst.1, fun i hi => hfirst.2 i (hrest.2 i hi)⟩

end Alone

/-! ## One thread after the other -/

section Together

variable [Fintype τ] {D : Discipline ι S}

/-- The threads are in balance. -/
def InBalance (limit : ℕ) (D : Discipline ι S) (m : Threads τ κ ι S α) : Prop :=
  ∃ lockOf avail, Balanced limit D m lockOf avail

/-- The balance is kept over all turns. -/
theorem InBalance.play (h : InBalance limit D m) (hsound : ∀ c, (prog c).Sound D) (turns : List τ) :
    InBalance limit D (m.play limit prog turns) := by
  refine Machine.run_invariant (I := InBalance limit D) ?_ h (Machine.allSteps_true _ _)
  rintro m e ⟨lockOf, avail, hm⟩ -
  exact hm.step hsound e

omit [DecidableEq τ] [DecidableEq ι] in
/-- A thread that has come to a halt has no lock. -/
theorem InBalance.owner_ne_of_halted (h : InBalance limit D m) (hhalted : m.Halted t) (i : ι) :
    m.owner i ≠ some t := by
  obtain ⟨lockOf, avail, hbalanced⟩ := h
  have hfits := hbalanced.fits t
  have hlock : lockOf t = none := by
    rcases hhalted with ⟨last, htask⟩ | ⟨i, next, htask, -⟩ <;> rw [htask] at hfits <;>
      exact Option.map_eq_none_iff.mp hfits.1
  rw [Ne, hbalanced.owner i t, hlock]
  exact fun hsome => (by cases hsome)

/-- What each thread can be brought to (`B`) without undoing it for the others, all can be brought
to. -/
theorem one_by_one {I : Threads τ κ ι S α → Prop} {B : Threads τ κ ι S α → τ → Prop}
    (hone : ∀ m t, I m → ∃ turns, I (m.play limit prog turns) ∧ B (m.play limit prog turns) t ∧
      ∀ s, B m s → B (m.play limit prog turns) s) (hm : I m) :
    ∃ turns, I (m.play limit prog turns) ∧ ∀ t, B (m.play limit prog turns) t := by
  suffices hall : ∀ ts : List τ, ∃ turns, I (m.play limit prog turns) ∧
      ∀ t ∈ ts, B (m.play limit prog turns) t by
    obtain ⟨turns, hI, hbrought⟩ := hall Finset.univ.toList
    exact ⟨turns, hI, fun t => hbrought t (Finset.mem_toList.mpr (Finset.mem_univ t))⟩
  intro ts
  induction ts with
  | nil => exact ⟨[], hm, fun t ht => absurd ht List.not_mem_nil⟩
  | cons t ts ih =>
    obtain ⟨turns, hI, hbrought⟩ := ih
    obtain ⟨more, hI', ht, hkeep⟩ := hone _ t hI
    refine ⟨turns ++ more, ?_, fun s hs => ?_⟩ <;> rw [play_append]
    · exact hI'
    · rcases List.mem_cons.mp hs with rfl | hs
      · exact ht
      · exact hkeep s (hbrought s hs)

/-- All locks can be given back. -/
theorem InBalance.exists_unlocked (h : InBalance limit D m) (hsound : ∀ c, (prog c).Sound D) :
    ∃ turns, InBalance limit D (m.play limit prog turns) ∧
      ∀ i, (m.play limit prog turns).owner i = none := by
  have hone : ∀ (m : Threads τ κ ι S α) t, InBalance limit D m →
      ∃ turns, InBalance limit D (m.play limit prog turns) ∧
        (∀ i, (m.play limit prog turns).owner i ≠ some t) ∧
        ∀ s, (∀ i, m.owner i ≠ some s) → ∀ i, (m.play limit prog turns).owner i ≠ some s := by
    intro m t hm
    obtain ⟨n, hhalted⟩ : Halts limit prog m t := exists_halted m t
    have hm' := hm.play hsound (List.replicate n t)
    have ht := hm'.owner_ne_of_halted hhalted
    refine ⟨_, hm', ht, fun s hs i hi => ?_⟩
    by_cases hst : s = t
    · subst hst
      exact ht i hi
    · exact hs i ((unmoved_play hst m n).2 i hi)
  obtain ⟨turns, hbalance, hnone⟩ := one_by_one (B := fun m t => ∀ i, m.owner i ≠ some t) hone h
  refine ⟨turns, hbalance, fun i => ?_⟩
  exact Option.eq_none_iff_forall_ne_some.mpr fun t => hnone t i

/-- **No deadlock.** From every state that sound programs can come to, all threads can return. -/
theorem InBalance.exists_atRest (h : InBalance limit D m) (hsound : ∀ c, (prog c).Sound D) :
    ∃ turns, (m.play limit prog turns).AtRest := by
  have hone : ∀ (m : Threads τ κ ι S α) t, (InBalance limit D m ∧ ∀ i, m.owner i = none) →
      ∃ turns, (InBalance limit D (m.play limit prog turns) ∧
          ∀ i, (m.play limit prog turns).owner i = none) ∧
        (∃ last, (m.play limit prog turns).tasks t = .idle last) ∧
        ∀ s, (∃ last, m.tasks s = .idle last) →
          ∃ last, (m.play limit prog turns).tasks s = .idle last := by
    rintro m t ⟨hm, hfree⟩
    obtain ⟨n, hhalted⟩ : Halts limit prog m t := exists_halted m t
    have hm' := hm.play hsound (List.replicate n t)
    -- the other threads have come to no lock, and this one has none
    have hfree' : ∀ i, (m.play limit prog (List.replicate n t)).owner i = none := by
      intro i
      refine Option.eq_none_iff_forall_ne_some.mpr fun s hs => ?_
      by_cases hst : s = t
      · subst hst
        exact hm'.owner_ne_of_halted hhalted i hs
      · have hbefore := (unmoved_play hst m n).2 i hs
        rw [hfree i] at hbefore
        cases hbefore
    have ht : ∃ last, (m.play limit prog (List.replicate n t)).tasks t = .idle last := by
      rcases hhalted with hidle | ⟨i, next, -, htaken⟩
      · exact hidle
      · exact absurd (hfree' i) htaken
    refine ⟨_, ⟨hm', hfree'⟩, ht, fun s hs => ?_⟩
    by_cases hst : s = t
    · subst hst
      exact ht
    · rwa [(unmoved_play hst m n).1]
  obtain ⟨turns, hunlocked⟩ := h.exists_unlocked hsound
  obtain ⟨more, -, hidle⟩ := one_by_one
    (I := fun m => InBalance limit D m ∧ ∀ i, m.owner i = none)
    (B := fun m t => ∃ last, m.tasks t = .idle last) hone hunlocked
  refine ⟨turns ++ more, ?_⟩
  rw [play_append]
  exact hidle

end Together

end Threads

end Reservation
