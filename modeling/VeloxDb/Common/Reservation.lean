import Mathlib.Algebra.Order.BigOperators.Group.Finset
import VeloxDb.Common.Machine
import VeloxDb.Common.Weight

/-!
# Threads that share locked parts and a counter of what they hold

A store has several parts, each behind a lock of its own, and one counter for the size of all of
them, which no lock protects: a thread *reserves* before a part grows and *releases* when it has
shrunk, each in a loop around a compare-and-exchange. A program is what one thread does, and
`Threads` is any number of threads that take turns, one access to shared memory at a time.

At no instant is the counter the size of the parts: a thread may have reserved and not yet stored, or
released and not yet erased. The rules of `wp` follow what a thread may still use: `avail` is the
size of the part it has locked, with what it has reserved and without what it has released. A program
that gives back exactly what it may use is `Sound`, and any interleaving of sound programs keeps the
counter equal to the size of the unlocked parts and the `avail` of all threads (`Balanced`). So a
release never finds less than it takes, and when all threads rest, the counter is exact. A limit of
zero is none, and then nothing is counted.
-/

namespace Reservation

/-! ## Programs -/

/-- A program of one thread: the locks it takes, what it does to the part that it has locked, what it
asks the counter for, and what it adds to the count of events. -/
inductive Prog (ι S α : Type) : Type
  | done (result : α)
  | lock (i : ι) (next : Prog ι S α)
  | unlock (i : ι) (next : Prog ι S α)
  | access (i : ι) (write : S → S) (next : S → Prog ι S α)
  | reserve (n : ℕ) (next : Bool → Prog ι S α)
  | release (n : ℕ) (next : Prog ι S α)
  | count (n : ℕ) (next : Prog ι S α)

/-- The parts, the counter of their size, and the count of events. -/
structure Store (ι S : Type) where
  used : ℕ := 0
  counted : ℕ := 0
  shards : ι → S

/-- The answer to a reservation that nothing interrupts; a limit of zero is none. -/
def reserved (limit used n : ℕ) : Option ℕ :=
  if n = 0 ∨ limit = 0 then some used
  else if used > limit ∨ n > limit - used then none
  else some (used + n)

namespace Prog

variable {ι S α β : Type}

/-- One program after the other. -/
protected def bind : Prog ι S α → (α → Prog ι S β) → Prog ι S β
  | .done result, f => f result
  | .lock i next, f => .lock i (next.bind f)
  | .unlock i next, f => .unlock i (next.bind f)
  | .access i write next, f => .access i write fun s => (next s).bind f
  | .reserve n next, f => .reserve n fun b => (next b).bind f
  | .release n next, f => .release n (next.bind f)
  | .count n next, f => .count n (next.bind f)

instance : Monad (Prog ι S) where
  pure := .done
  bind := Prog.bind

variable [DecidableEq ι]

/-- The program without other threads. -/
def solo (limit : ℕ) : Prog ι S α → Store ι S → α × Store ι S
  | .done result, st => (result, st)
  | .lock _ next, st => next.solo limit st
  | .unlock _ next, st => next.solo limit st
  | .access i write next, st =>
    (next (st.shards i)).solo limit
      { st with shards := Function.update st.shards i (write (st.shards i)) }
  | .reserve n next, st =>
    match reserved limit st.used n with
    | none => (next false).solo limit st
    | some used => (next true).solo limit { st with used }
  | .release n next, st => next.solo limit { st with used := st.used - n }
  | .count n next, st => next.solo limit { st with counted := st.counted + n }

/-- Run alone, one program after the other. -/
theorem solo_bind (limit : ℕ) (p : Prog ι S α) (f : α → Prog ι S β) (st : Store ι S) :
    (p >>= f).solo limit st = (f (p.solo limit st).1).solo limit (p.solo limit st).2 := by
  show (p.bind f).solo limit st = _
  induction p generalizing st with
  | done => rfl
  | lock i next ih => exact ih st
  | unlock i next ih => exact ih st
  | access i write next ih => exact ih _ _
  | reserve n next ih =>
    simp only [Prog.bind, solo]
    split
    · exact ih false st
    · exact ih true _
  | release n next ih => exact ih _
  | count n next ih => exact ih _

end Prog

/-! ## Rules -/

/-- What the locks protect: which parts there are, how large one is, and what holds of a part that
nobody has locked. -/
structure Discipline (ι S : Type) where
  all : Finset ι
  size : S → ℕ
  Ok : S → Prop

variable {ι S α β : Type} {D : Discipline ι S}

/-- The part that a thread has locked, as it is now. -/
abbrev Locked (ι S : Type) := Option (ι × S)

/-- What has to hold of the locked part and of what the thread may use, so that the program takes no
lock while it has one, touches only what it has locked, leaves it in order, releases no more than it
may use and ends in `Q`. -/
def Prog.wp (D : Discipline ι S) : Prog ι S α → (α → Locked ι S → ℕ → Prop) → Locked ι S → ℕ → Prop
  | .done result, Q, lk, avail => Q result lk avail
  | .lock i next, Q, lk, avail =>
    lk = none ∧ i ∈ D.all ∧ ∀ s, D.Ok s → next.wp D Q (some (i, s)) (avail + D.size s)
  | .unlock i next, Q, lk, avail =>
    ∃ s, lk = some (i, s) ∧ D.Ok s ∧ D.size s ≤ avail ∧ next.wp D Q none (avail - D.size s)
  | .access i write next, Q, lk, avail =>
    ∃ s, lk = some (i, s) ∧ (next s).wp D Q (some (i, write s)) avail
  | .reserve n next, Q, lk, avail =>
    (next true).wp D Q lk (avail + n) ∧ (next false).wp D Q lk avail
  | .release n next, Q, lk, avail => n ≤ avail ∧ next.wp D Q lk (avail - n)
  | .count _ next, Q, lk, avail => next.wp D Q lk avail

namespace Prog

variable {p : Prog ι S α} {Q Q' : α → Locked ι S → ℕ → Prop} {lk : Locked ι S} {avail : ℕ}

/-- A weaker condition holds as well. -/
theorem wp_mono (h : p.wp D Q lk avail) (hQ : ∀ a lk avail, Q a lk avail → Q' a lk avail) :
    p.wp D Q' lk avail := by
  induction p generalizing lk avail with
  | done => exact hQ _ _ _ h
  | lock i next ih =>
    obtain ⟨hlk, hi, hnext⟩ := h
    exact ⟨hlk, hi, fun s hs => ih (hnext s hs)⟩
  | unlock i next ih =>
    obtain ⟨s, hlk, hok, hle, hnext⟩ := h
    exact ⟨s, hlk, hok, hle, ih hnext⟩
  | access i write next ih =>
    obtain ⟨s, hlk, hnext⟩ := h
    exact ⟨s, hlk, ih s hnext⟩
  | reserve n next ih => exact ⟨ih true h.1, ih false h.2⟩
  | release n next ih => exact ⟨h.1, ih h.2⟩
  | count n next ih => exact ih h

/-- What a sequence of two programs needs is what the first needs to end where the second can start. -/
theorem wp_bind {f : α → Prog ι S β} {R : β → Locked ι S → ℕ → Prop} :
    (p >>= f).wp D R lk avail ↔ p.wp D (fun a lk avail => (f a).wp D R lk avail) lk avail := by
  show (p.bind f).wp D R lk avail ↔ _
  induction p generalizing lk avail with
  | done => exact Iff.rfl
  | lock i next ih => simp only [Prog.bind, wp, ih]
  | unlock i next ih => simp only [Prog.bind, wp, ih]
  | access i write next ih => simp only [Prog.bind, wp, ih]
  | reserve n next ih => simp only [Prog.bind, wp, ih]
  | release n next ih => simp only [Prog.bind, wp, ih]
  | count n next ih => simp only [Prog.bind, wp, ih]

/-- Nothing is locked and nothing is left to use. -/
def Settled (_ : α) (lk : Locked ι S) (avail : ℕ) : Prop := lk = none ∧ avail = 0

/-- A program that gives back exactly what it may use. -/
def Sound (D : Discipline ι S) (p : Prog ι S α) : Prop := p.wp D Settled none 0

end Prog

/-! ## Threads -/

/-- Where a thread is: between two programs, with the result of the last; in a program; or in the loop
of a reservation or of a release, with the value of the counter that it has read. -/
inductive Task (ι S α : Type)
  | idle (last : Option α)
  | running (p : Prog ι S α)
  | reserving (n current : ℕ) (next : Bool → Prog ι S α)
  | releasing (n current : ℕ) (next : Prog ι S α)

/-- The thread has no call. -/
def Task.isIdle : Task ι S α → Bool
  | .idle _ => true
  | _ => false

/-- A thread without a call has the answer of its last one. -/
theorem Task.isIdle_iff (task : Task ι S α) : task.isIdle = true ↔ ∃ last, task = .idle last := by
  cases task <;> simp [isIdle]

/-- The store, who has locked which part, and where each thread is; `started` are the calls that each
thread has begun. -/
structure Threads (τ κ ι S α : Type) extends Store ι S where
  owner : ι → Option τ := fun _ => none
  tasks : τ → Task ι S α := fun _ => .idle none
  started : τ → List κ := fun _ => []

/-- A thread begins a call, or takes a turn; a weak compare-and-exchange may fail for no reason. -/
inductive Event (τ κ : Type)
  | start (t : τ) (c : κ)
  | turn (t : τ) (spurious : Bool)

namespace Threads

variable {τ κ : Type} [DecidableEq τ] [DecidableEq ι] (limit : ℕ) (prog : κ → Prog ι S α)

/-- One thread has another task. -/
def withTask (m : Threads τ κ ι S α) (t : τ) (task : Task ι S α) : Threads τ κ ι S α :=
  { m with tasks := Function.update m.tasks t task }

/-- A turn of a thread in a program. -/
def runTurn (m : Threads τ κ ι S α) (t : τ) : Prog ι S α → Threads τ κ ι S α
  | .done result => m.withTask t (.idle (some result))
  | .lock i next =>
    match m.owner i with
    | some _ => m
    | none => { m with owner := Function.update m.owner i (some t) }.withTask t (.running next)
  | .unlock i next => { m with owner := Function.update m.owner i none }.withTask t (.running next)
  | .access i write next =>
    { m with shards := Function.update m.shards i (write (m.shards i)) }.withTask t
      (.running (next (m.shards i)))
  | .reserve n next =>
    if n = 0 ∨ limit = 0 then m.withTask t (.running (next true))
    else m.withTask t (.reserving n m.used next)
  | .release n next =>
    if n = 0 then m.withTask t (.running next) else m.withTask t (.releasing n m.used next)
  | .count n next => { m with counted := m.counted + n }.withTask t (.running next)

/-- A round of the loop of a reservation. -/
def reserveTurn (m : Threads τ κ ι S α) (t : τ) (spurious : Bool) (n current : ℕ)
    (next : Bool → Prog ι S α) : Threads τ κ ι S α :=
  if current > limit ∨ n > limit - current then m.withTask t (.running (next false))
  else if m.used = current ∧ spurious = false then
    { m with used := current + n }.withTask t (.running (next true))
  else m.withTask t (.reserving n m.used next)

/-- A round of the loop of a release. -/
def releaseTurn (m : Threads τ κ ι S α) (t : τ) (spurious : Bool) (n current : ℕ) (next : Prog ι S α) :
    Threads τ κ ι S α :=
  if current = 0 then m.withTask t (.running next)
  else if m.used = current ∧ spurious = false then
    { m with used := if n > current then 0 else current - n }.withTask t (.running next)
  else m.withTask t (.releasing n m.used next)

/-- One event: a call starts, or its thread takes a step. -/
def step (m : Threads τ κ ι S α) : Event τ κ → Threads τ κ ι S α
  | .start t c =>
    match m.tasks t with
    | .idle _ =>
      { m with started := Function.update m.started t (m.started t ++ [c]) }.withTask t
        (.running (prog c))
    | _ => m
  | .turn t spurious =>
    match m.tasks t with
    | .idle _ => m
    | .running p => m.runTurn limit t p
    | .reserving n current next => m.reserveTurn limit t spurious n current next
    | .releasing n current next => m.releaseTurn t spurious n current next

/-- A run from a store that nobody has locked. -/
def run (st : Store ι S) (events : List (Event τ κ)) : Threads τ κ ι S α :=
  Machine.run (step limit prog) { toStore := st } events

/-- All threads are between two programs. -/
def AtRest (m : Threads τ κ ι S α) : Prop := ∀ t, ∃ last, m.tasks t = .idle last

instance [Fintype τ] (m : Threads τ κ ι S α) : Decidable m.AtRest :=
  decidable_of_iff (∀ t, (m.tasks t).isIdle = true)
    (forall_congr' fun t => Task.isIdle_iff (m.tasks t))

/-! ## What a turn can do -/

section Owners

variable {owner : ι → Option τ} {lockOf : τ → Option ι} {t s : τ} {i : ι}

/-- `lockOf` says what each thread has locked: a thread has one lock at most, a lock one owner. -/
def Owns (owner : ι → Option τ) (lockOf : τ → Option ι) : Prop :=
  ∀ i t, owner i = some t ↔ lockOf t = some i

omit [DecidableEq τ] [DecidableEq ι] in
/-- A lock that is free is held by no thread. -/
theorem Owns.free (h : Owns owner lockOf) (hfree : owner i = none) (t : τ) : lockOf t ≠ some i := by
  intro hlock
  rw [(h i t).mpr hlock] at hfree
  cases hfree

omit [DecidableEq τ] [DecidableEq ι] in
/-- A lock that is held is not held by another thread. -/
theorem Owns.other (h : Owns owner lockOf) (hst : s ≠ t) (hlock : lockOf s = some i) :
    lockOf t ≠ some i := by
  intro hsame
  exact hst (Option.some.inj (((h i s).mpr hlock).symm.trans ((h i t).mpr hsame)))

/-- Taking a free lock. -/
theorem Owns.lock (h : Owns owner lockOf) (hfree : owner i = none) (hnone : lockOf t = none) :
    Owns (Function.update owner i (some t)) (Function.update lockOf t (some i)) := by
  intro j s
  have hold := h j s
  by_cases hj : j = i <;> by_cases hs : s = t
  · simp [hj, hs]
  · simp [hj, hs, h.free hfree s, Ne.symm hs]
  · rw [hs, hnone] at hold
    simp only [hs, Function.update_of_ne hj, Function.update_self, Option.some.injEq]
    exact ⟨fun howned => absurd (hold.mp howned) (by simp), fun heq => absurd heq.symm hj⟩
  · simpa [hj, hs] using hold

/-- Giving a lock back. -/
theorem Owns.unlock (h : Owns owner lockOf) (hlock : lockOf t = some i) :
    Owns (Function.update owner i none) (Function.update lockOf t none) := by
  intro j s
  have hold := h j s
  by_cases hj : j = i <;> by_cases hs : s = t
  · simp [hj, hs]
  · simp only [hj, Function.update_self, Function.update_of_ne hs]
    exact ⟨fun hnone => (by cases hnone), fun hother => absurd hlock (h.other hs hother)⟩
  · rw [hs, hlock] at hold
    simp only [hs, Function.update_of_ne hj, Function.update_self]
    refine ⟨fun howned => ?_, fun hnone => (by cases hnone)⟩
    exact absurd (Option.some.inj (hold.mp howned)).symm hj
  · simpa [hj, hs] using hold

end Owners

section Turns

variable {limit prog} {m m' : Threads τ κ ι S α} {t : τ} {lockOf : τ → Option ι} {avail : τ → ℕ}

/-- The part that a thread has locked. -/
def held (m : Threads τ κ ι S α) (lk : Option ι) : Locked ι S := lk.map fun i => (i, m.shards i)

/-- The size of a part that nobody has locked. -/
def freeSize (D : Discipline ι S) (m : Threads τ κ ι S α) (i : ι) : ℕ :=
  if m.owner i = none then D.size (m.shards i) else 0

/-- What remains to be done by a thread fits what it has locked and may use. A release has read a
counter that is not too small, if there is a limit; without one nothing is counted. -/
def Fits (limit : ℕ) (D : Discipline ι S) (lk : Locked ι S) (avail : ℕ) : Task ι S α → Prop
  | .idle _ => lk = none ∧ avail = 0
  | .running p => p.wp D Prog.Settled lk avail
  | .reserving n _ next =>
    (next true).wp D Prog.Settled lk (avail + n) ∧ (next false).wp D Prog.Settled lk avail
  | .releasing n current next =>
    (limit ≠ 0 → n ≤ current) ∧ 0 < n ∧ n ≤ avail ∧ next.wp D Prog.Settled lk (avail - n)

variable [Fintype τ]

/-- **The invariant.** `lockOf` says what each thread has locked and `avail` what it may use. -/
structure Balanced (limit : ℕ) (D : Discipline ι S) (m : Threads τ κ ι S α) (lockOf : τ → Option ι)
    (avail : τ → ℕ) : Prop where
  owner : Owns m.owner lockOf
  within : ∀ t i, lockOf t = some i → i ∈ D.all
  ok : ∀ i ∈ D.all, m.owner i = none → D.Ok (m.shards i)
  fits : ∀ t, Fits limit D (m.held (lockOf t)) (avail t) (m.tasks t)
  used : limit ≠ 0 → m.used = ∑ i ∈ D.all, freeSize D m i + ∑ t, avail t

namespace Balanced

omit [DecidableEq τ] [DecidableEq ι] in
/-- What a thread may use is in the counter. -/
theorem avail_le (h : Balanced limit D m lockOf avail) (hlimit : limit ≠ 0) (t : τ) :
    avail t ≤ m.used := by
  have hle : avail t ≤ ∑ t, avail t := Finset.single_le_sum (fun _ _ => Nat.zero_le _) (Finset.mem_univ t)
  have hused := h.used hlimit
  omega

omit [DecidableEq ι] in
/-- A turn that keeps the locks: only the part that the thread has locked may change, and the counter
changes as what the thread may use. -/
theorem turn (h : Balanced limit D m lockOf avail) {task : Task ι S α} {a : ℕ}
    (htasks : m'.tasks = Function.update m.tasks t task) (howner : m'.owner = m.owner)
    (hshards : ∀ i, lockOf t ≠ some i → m'.shards i = m.shards i)
    (hfits : Fits limit D (m'.held (lockOf t)) a task)
    (hused : limit ≠ 0 → m'.used + avail t = m.used + a) :
    Balanced limit D m' lockOf (Function.update avail t a) := by
  have hfree : ∀ i, m.owner i = none → m'.shards i = m.shards i := by
    intro i hi
    exact hshards i (h.owner.free hi t)
  refine ⟨?_, h.within, ?_, ?_, ?_⟩
  · rw [howner]
    exact h.owner
  · intro i hi hnone
    rw [howner] at hnone
    rw [hfree i hnone]
    exact h.ok i hi hnone
  · intro s
    rw [htasks]
    by_cases hs : s = t
    · subst hs
      simpa only [Function.update_self] using hfits
    · simp only [Function.update_of_ne hs]
      -- what another thread has locked is as it was
      have hheld : m'.held (lockOf s) = m.held (lockOf s) := by
        cases hlock : lockOf s with
        | none => rfl
        | some i => simp only [held, Option.map_some, hshards i (h.owner.other hs hlock)]
      rw [hheld]
      exact h.fits s
  · intro hlimit
    have hsizes : ∑ i ∈ D.all, freeSize D m' i = ∑ i ∈ D.all, freeSize D m i := by
      refine Finset.sum_congr rfl fun i _ => ?_
      simp only [freeSize, howner]
      split_ifs with hnone
      · rw [hfree i hnone]
      · rfl
    have havail := Keyed.sum_update_add (Finset.mem_univ t) avail a
    have hbefore := h.used hlimit
    have hmoved := hused hlimit
    omega

omit [DecidableEq ι] in
/-- A turn that only moves the thread on. -/
theorem withTask (h : Balanced limit D m lockOf avail) {task : Task ι S α}
    (hfits : Fits limit D (m.held (lockOf t)) (avail t) task) :
    Balanced limit D (m.withTask t task) lockOf avail := by
  have hturn : Balanced limit D (m.withTask t task) lockOf (Function.update avail t (avail t)) :=
    h.turn rfl rfl (fun _ _ => rfl) hfits fun _ => rfl
  rwa [Function.update_eq_self] at hturn

/-- A thread locks a part and may use what is in it. -/
theorem lock (h : Balanced limit D m lockOf avail) {i : ι} {next : Prog ι S α} (hi : i ∈ D.all)
    (hfree : m.owner i = none) (hnone : lockOf t = none)
    (hnext : ∀ s, D.Ok s → next.wp D Prog.Settled (some (i, s)) (avail t + D.size s))
    (htasks : m'.tasks = Function.update m.tasks t (.running next))
    (howner : m'.owner = Function.update m.owner i (some t)) (hshards : m'.shards = m.shards)
    (hused : m'.used = m.used) :
    Balanced limit D m' (Function.update lockOf t (some i))
      (Function.update avail t (avail t + D.size (m.shards i))) := by
  refine ⟨?_, ?_, ?_, ?_, ?_⟩
  · rw [howner]
    exact h.owner.lock hfree hnone
  · intro s j hs
    by_cases hst : s = t
    · subst hst
      rw [Function.update_self] at hs
      exact Option.some.inj hs ▸ hi
    · rw [Function.update_of_ne hst] at hs
      exact h.within s j hs
  · intro j hj hfree'
    rw [howner] at hfree'
    rw [hshards]
    by_cases hji : j = i
    · subst hji
      rw [Function.update_self] at hfree'
      cases hfree'
    · rw [Function.update_of_ne hji] at hfree'
      exact h.ok j hj hfree'
  · intro s
    rw [htasks]
    by_cases hst : s = t
    · subst hst
      simp only [Function.update_self, held, Option.map_some, hshards]
      exact hnext _ (h.ok i hi hfree)
    · simp only [Function.update_of_ne hst, held, hshards]
      exact h.fits s
  · intro hlimit
    have hsizes : freeSize D m' = Function.update (freeSize D m) i 0 := by
      funext j
      by_cases hj : j = i
      · subst hj
        simp [freeSize, howner]
      · simp [freeSize, howner, hshards, hj]
    have hsum := Keyed.sum_update_add hi (freeSize D m) 0
    have havail := Keyed.sum_update_add (Finset.mem_univ t) avail (avail t + D.size (m.shards i))
    have hbefore := h.used hlimit
    have hi0 : freeSize D m i = D.size (m.shards i) := by rw [freeSize, if_pos hfree]
    rw [hsizes]
    omega

/-- A thread unlocks a part and leaves its size behind. -/
theorem unlock (h : Balanced limit D m lockOf avail) {i : ι} {next : Prog ι S α}
    (hlock : lockOf t = some i) (hok : D.Ok (m.shards i)) (hle : D.size (m.shards i) ≤ avail t)
    (hnext : next.wp D Prog.Settled none (avail t - D.size (m.shards i)))
    (htasks : m'.tasks = Function.update m.tasks t (.running next))
    (howner : m'.owner = Function.update m.owner i none) (hshards : m'.shards = m.shards)
    (hused : m'.used = m.used) :
    Balanced limit D m' (Function.update lockOf t none)
      (Function.update avail t (avail t - D.size (m.shards i))) := by
  have hi := h.within t i hlock
  have hmine : m.owner i = some t := (h.owner i t).mpr hlock
  refine ⟨?_, ?_, ?_, ?_, ?_⟩
  · rw [howner]
    exact h.owner.unlock hlock
  · intro s j hs
    by_cases hst : s = t
    · subst hst
      rw [Function.update_self] at hs
      cases hs
    · rw [Function.update_of_ne hst] at hs
      exact h.within s j hs
  · intro j hj hfree
    rw [howner] at hfree
    rw [hshards]
    by_cases hji : j = i
    · subst hji
      exact hok
    · rw [Function.update_of_ne hji] at hfree
      exact h.ok j hj hfree
  · intro s
    rw [htasks]
    by_cases hst : s = t
    · subst hst
      simp only [Function.update_self]
      exact hnext
    · simp only [Function.update_of_ne hst, held, hshards]
      exact h.fits s
  · intro hlimit
    have hsizes : freeSize D m' = Function.update (freeSize D m) i (D.size (m.shards i)) := by
      funext j
      by_cases hj : j = i
      · subst hj
        simp [freeSize, howner, hshards]
      · simp [freeSize, howner, hshards, hj]
    have hsum := Keyed.sum_update_add hi (freeSize D m) (D.size (m.shards i))
    have havail := Keyed.sum_update_add (Finset.mem_univ t) avail (avail t - D.size (m.shards i))
    have hbefore := h.used hlimit
    have hi0 : freeSize D m i = 0 := by simp [freeSize, hmine]
    rw [hsizes]
    omega

/-- A turn in a program. -/
theorem runTurn (h : Balanced limit D m lockOf avail) {p : Prog ι S α} (htask : m.tasks t = .running p) :
    ∃ lockOf' avail', Balanced limit D (m.runTurn limit t p) lockOf' avail' := by
  have hfits := h.fits t
  rw [htask] at hfits
  cases p with
  | done result => exact ⟨lockOf, avail, h.withTask hfits⟩
  | lock i next =>
    obtain ⟨hheld, hi, hnext⟩ := hfits
    rw [Threads.runTurn]
    split
    · exact ⟨lockOf, avail, h⟩
    · next hfree =>
      exact ⟨_, _, h.lock hi hfree (Option.map_eq_none_iff.mp hheld) hnext rfl rfl rfl rfl⟩
  | unlock i next =>
    obtain ⟨s, hheld, hok, hle, hnext⟩ := hfits
    obtain ⟨j, hlock, hj⟩ := Option.map_eq_some_iff.mp hheld
    obtain ⟨rfl, rfl⟩ := Prod.mk.inj hj
    exact ⟨_, _, h.unlock hlock hok hle hnext rfl rfl rfl rfl⟩
  | access i write next =>
    obtain ⟨s, hheld, hnext⟩ := hfits
    obtain ⟨j, hlock, hj⟩ := Option.map_eq_some_iff.mp hheld
    obtain ⟨rfl, rfl⟩ := Prod.mk.inj hj
    refine ⟨_, _, h.turn (t := t) (a := avail t) rfl rfl (fun i hi => ?_) ?_ fun _ => rfl⟩
    · have hne : i ≠ j := fun heq => hi (heq ▸ hlock)
      exact Function.update_of_ne hne _ _
    · show Fits limit D (Option.map _ (lockOf t)) _ _
      rw [hlock, Option.map_some]
      show (next (m.shards j)).wp D _
        (some (j, Function.update m.shards j (write (m.shards j)) j)) _
      rw [Function.update_self]
      exact hnext
  | reserve n next =>
    rw [Threads.runTurn]
    split_ifs with hzero
    · refine ⟨lockOf, Function.update avail t (avail t + n),
        h.turn rfl rfl (fun _ _ => rfl) hfits.1 fun hlimit => ?_⟩
      rw [hzero.resolve_right hlimit]
      rfl
    · exact ⟨lockOf, avail, h.withTask hfits⟩
  | release n next =>
    rw [Threads.runTurn]
    split_ifs with hzero
    · subst hzero
      exact ⟨lockOf, avail, h.withTask hfits.2⟩
    · refine ⟨lockOf, avail, h.withTask ⟨fun hlimit => ?_, Nat.pos_of_ne_zero hzero, hfits⟩⟩
      exact hfits.1.trans (h.avail_le hlimit t)
  | count n next =>
    exact ⟨lockOf, Function.update avail t (avail t),
      h.turn rfl rfl (fun _ _ => rfl) hfits fun _ => rfl⟩

omit [DecidableEq ι] in
/-- A round of the loop of a reservation. -/
theorem reserveTurn (h : Balanced limit D m lockOf avail) {n current : ℕ} {next : Bool → Prog ι S α}
    (htask : m.tasks t = .reserving n current next) (spurious : Bool) :
    ∃ avail', Balanced limit D (m.reserveTurn limit t spurious n current next) lockOf avail' := by
  have hfits := h.fits t
  rw [htask] at hfits
  rw [Threads.reserveTurn]
  split_ifs with hfull hswap
  · exact ⟨avail, h.withTask hfits.2⟩
  · refine ⟨Function.update avail t (avail t + n),
      h.turn rfl rfl (fun _ _ => rfl) hfits.1 fun _ => ?_⟩
    show current + n + avail t = m.used + (avail t + n)
    rw [hswap.1]
    omega
  · exact ⟨avail, h.withTask hfits⟩

omit [DecidableEq ι] in
/-- A round of the loop of a release. With a limit the counter is not cut off at zero. -/
theorem releaseTurn (h : Balanced limit D m lockOf avail) {n current : ℕ} {next : Prog ι S α}
    (htask : m.tasks t = .releasing n current next) (spurious : Bool) :
    ∃ avail', Balanced limit D (m.releaseTurn t spurious n current next) lockOf avail' := by
  have hfits := h.fits t
  rw [htask] at hfits
  obtain ⟨hcurrent, hpos, hle, hnext⟩ := hfits
  rw [Threads.releaseTurn]
  by_cases hzero : current = 0
  · rw [if_pos hzero]
    refine ⟨_, h.turn rfl rfl (fun _ _ => rfl) hnext fun hlimit => ?_⟩
    have hread := hcurrent hlimit
    omega
  · rw [if_neg hzero]
    by_cases hswap : m.used = current ∧ spurious = false
    · rw [if_pos hswap]
      refine ⟨_, h.turn rfl rfl (fun _ _ => rfl) hnext fun hlimit => ?_⟩
      have hread := hcurrent hlimit
      show (if n > current then 0 else current - n) + avail t = m.used + (avail t - n)
      rw [if_neg (by omega), hswap.1]
      omega
    · rw [if_neg hswap]
      refine ⟨avail, h.withTask ⟨fun hlimit => ?_, hpos, hle, hnext⟩⟩
      exact hle.trans (h.avail_le hlimit t)

/-- **Every turn keeps the balance**, whichever thread takes it and whatever its step is. -/
theorem step (h : Balanced limit D m lockOf avail) (hsound : ∀ c, (prog c).Sound D) (e : Event τ κ) :
    ∃ lockOf' avail', Balanced limit D (m.step limit prog e) lockOf' avail' := by
  cases e with
  | start t c =>
    rw [Threads.step]
    split
    · next last hidle =>
      have hfits := h.fits t
      rw [hidle] at hfits
      obtain ⟨hheld, hnothing⟩ := hfits
      refine ⟨lockOf, Function.update avail t (avail t),
        h.turn rfl rfl (fun _ _ => rfl) ?_ fun _ => rfl⟩
      have hlock : lockOf t = none := Option.map_eq_none_iff.mp hheld
      rw [hlock, hnothing]
      exact hsound c
    · exact ⟨lockOf, avail, h⟩
  | turn t spurious =>
    rw [Threads.step]
    split
    · exact ⟨lockOf, avail, h⟩
    · next htask => exact h.runTurn htask
    · next htask =>
      obtain ⟨avail', h'⟩ := h.reserveTurn htask spurious
      exact ⟨lockOf, avail', h'⟩
    · next htask =>
      obtain ⟨avail', h'⟩ := h.releaseTurn htask spurious
      exact ⟨lockOf, avail', h'⟩

end Balanced

end Turns

/-! ## Runs -/

section Runs

variable {limit prog} [Fintype τ] {st : Store ι S}

/-- A store that nobody has locked, whose parts are in order and whose counter, if there is a limit, is
their size. -/
def Fair (limit : ℕ) (D : Discipline ι S) (st : Store ι S) : Prop :=
  (∀ i ∈ D.all, D.Ok (st.shards i)) ∧
    (limit ≠ 0 → st.used = ∑ i ∈ D.all, D.size (st.shards i))

omit [DecidableEq τ] [DecidableEq ι] in
/-- It holds at the start. -/
theorem balanced_init (hst : Fair limit D st) :
    Balanced limit D ({ toStore := st } : Threads τ κ ι S α) (fun _ => none) fun _ => 0 where
  owner _ _ := ⟨fun h => (by cases h), fun h => (by cases h)⟩
  within _ _ h := by cases h
  ok i hi _ := hst.1 i hi
  fits _ := ⟨rfl, rfl⟩
  used hlimit := by
    show st.used = _
    rw [hst.2 hlimit]
    simp [freeSize]

/-- However the turns of sound programs fall, the counter is in balance. -/
theorem balanced_run (hsound : ∀ c, (prog c).Sound D) (hst : Fair limit D st)
    (events : List (Event τ κ)) :
    ∃ lockOf avail, Balanced limit D (run limit prog st events) lockOf avail := by
  refine Machine.run_invariant (I := fun m => ∃ lockOf avail, Balanced limit D m lockOf avail) ?_
    ⟨_, _, balanced_init hst⟩ (Machine.allSteps_true _ events)
  rintro m e ⟨lockOf, avail, hm⟩ -
  exact hm.step hsound e

omit [DecidableEq τ] [DecidableEq ι] in
/-- A release has read at least what it takes, so it does not cut the counter off at zero. -/
theorem Balanced.le_current {m : Threads τ κ ι S α} {lockOf : τ → Option ι} {avail : τ → ℕ}
    (h : Balanced limit D m lockOf avail) (hlimit : limit ≠ 0) {t : τ} {n current : ℕ}
    {next : Prog ι S α} (htask : m.tasks t = .releasing n current next) : n ≤ current := by
  have hfits := h.fits t
  rw [htask] at hfits
  exact hfits.1 hlimit

omit [DecidableEq τ] [DecidableEq ι] in
/-- **At rest the counter is exact**, and every part is in order. -/
theorem Balanced.atRest {m : Threads τ κ ι S α} {lockOf : τ → Option ι} {avail : τ → ℕ}
    (h : Balanced limit D m lockOf avail) (hrest : m.AtRest) : Fair limit D m.toStore := by
  have hidle : ∀ t, lockOf t = none ∧ avail t = 0 := by
    intro t
    obtain ⟨last, htask⟩ := hrest t
    have hfits := h.fits t
    rw [htask] at hfits
    exact ⟨Option.map_eq_none_iff.mp hfits.1, hfits.2⟩
  have hfree : ∀ i, m.owner i = none := by
    intro i
    refine Option.eq_none_iff_forall_ne_some.mpr fun t ht => ?_
    rw [h.owner i t, (hidle t).1] at ht
    cases ht
  refine ⟨fun i hi => h.ok i hi (hfree i), fun hlimit => ?_⟩
  have hused := h.used hlimit
  simp only [(hidle _).2, Finset.sum_const_zero, Nat.add_zero, freeSize, hfree, if_true] at hused
  exact hused

omit [DecidableEq τ] [DecidableEq ι] in
/-- What nobody has locked is within the counter. -/
theorem Balanced.free_le {m : Threads τ κ ι S α} {lockOf : τ → Option ι} {avail : τ → ℕ}
    (h : Balanced limit D m lockOf avail) (hlimit : limit ≠ 0) :
    ∑ i ∈ D.all, freeSize D m i ≤ m.used := by
  have hused := h.used hlimit
  omega

omit [Fintype τ] in
/-- **The limit.** No reservation takes the counter beyond it. -/
theorem used_le_limit (hst : st.used ≤ limit) (events : List (Event τ κ)) :
    (run limit prog st events).used ≤ limit := by
  refine Machine.run_invariant (I := fun m : Threads τ κ ι S α => m.used ≤ limit) ?_ hst
    (Machine.allSteps_true _ events)
  intro m e hm _
  cases e with
  | start t c =>
    rw [step]
    split <;> exact hm
  | turn t spurious =>
    rw [step]
    split
    · exact hm
    · next p _ =>
      cases p with
      | lock i next =>
        rw [runTurn]
        split <;> exact hm
      | reserve n next =>
        rw [runTurn]
        split_ifs <;> exact hm
      | release n next =>
        rw [runTurn]
        split_ifs <;> exact hm
      | _ => exact hm
    · rw [reserveTurn]
      split_ifs with hfull hswap
      · exact hm
      · show _ + _ ≤ limit
        omega
      · exact hm
    · rw [releaseTurn]
      split_ifs with hzero hswap hcut
      · exact hm
      · exact Nat.zero_le _
      · show _ - _ ≤ limit
        omega
      · exact hm

end Runs

end Threads

end Reservation
