import Mathlib.Data.Finset.Basic
import Mathlib.Logic.Function.Basic

/-!
# A shared mutex

Any number of threads share the lock, or one holds it exclusively; that these exclude each other is
part of the structure. Taking the lock is a step that is only there while the lock can be had: a
thread that would have to wait does not take it.

A program keeps track of the lock in the states of its threads. `Tracks m mode` says that the lock
is held as these states say, every operation on the lock comes with the change of state that keeps
it so, and `alone` and `not_exclusive` are what a thread learns about the others.
-/

/-- How a thread holds the lock. -/
inductive LockMode
  | free
  | shared
  | exclusive
deriving DecidableEq, Repr

/-- A mutex that several hold together or one alone. -/
structure SharedMutex (ι : Type*) where
  shared : Finset ι
  exclusive : Option ι
  excludes : exclusive.isSome = true → shared = ∅

namespace SharedMutex

variable {ι : Type*} [DecidableEq ι]

/-- Nobody holds the lock. -/
def unlocked : SharedMutex ι := ⟨∅, none, fun h => nomatch h⟩

/-- It is granted while no one holds the mutex alone. -/
def lockShared (m : SharedMutex ι) (i : ι) : Option (SharedMutex ι) :=
  if m.exclusive = none then some ⟨insert i m.shared, none, fun h => nomatch h⟩ else none

/-- One of those that share it lets go. -/
def unlockShared (m : SharedMutex ι) (i : ι) : SharedMutex ι :=
  ⟨m.shared.erase i, m.exclusive, fun h => by rw [m.excludes h, Finset.erase_empty]⟩

/-- It is granted while no one holds the mutex. -/
def lock (m : SharedMutex ι) (i : ι) : Option (SharedMutex ι) :=
  if m.exclusive = none ∧ m.shared = ∅ then some ⟨∅, some i, fun _ => rfl⟩ else none

/-- The one that holds it alone lets go. -/
def unlock (m : SharedMutex ι) : SharedMutex ι :=
  { m with exclusive := none, excludes := fun h => nomatch h }

/-- The lock is held as the threads say. -/
structure Tracks (m : SharedMutex ι) (mode : ι → LockMode) : Prop where
  shared : ∀ i, i ∈ m.shared ↔ mode i = .shared
  exclusive : ∀ i, m.exclusive = some i ↔ mode i = .exclusive

namespace Tracks

variable {m m' : SharedMutex ι} {mode : ι → LockMode} {i j : ι}

omit [DecidableEq ι] in
/-- A new mutex tracks that no one holds it. -/
theorem unlocked : Tracks (SharedMutex.unlocked : SharedMutex ι) fun _ => .free :=
  ⟨fun i => by simp [SharedMutex.unlocked], fun i => by simp [SharedMutex.unlocked]⟩

omit [DecidableEq ι] in
/-- Beside a thread that holds the lock exclusively, nobody holds it. -/
theorem alone (h : Tracks m mode) (hi : mode i = .exclusive) (hj : j ≠ i) : mode j = .free := by
  have hex := (h.exclusive i).mpr hi
  cases hmode : mode j with
  | free => rfl
  | shared =>
    have hmem := (h.shared j).mpr hmode
    rw [m.excludes (by rw [hex]; rfl)] at hmem
    exact absurd hmem (Finset.notMem_empty j)
  | exclusive =>
    have hj' := (h.exclusive j).mpr hmode
    rw [hex, Option.some.injEq] at hj'
    exact absurd hj'.symm hj

omit [DecidableEq ι] in
/-- While it is shared, nobody holds it exclusively. -/
theorem not_exclusive (h : Tracks m mode) (hi : mode i = .shared) (j : ι) : mode j ≠ .exclusive := by
  intro hj
  have hij : i ≠ j := by
    rintro rfl
    rw [hi] at hj
    cases hj
  have hfree := h.alone hj hij
  rw [hi] at hfree
  cases hfree

/-- A shared hold is tracked, and no one holds the mutex alone. -/
theorem lockShared (h : Tracks m mode) (hlock : m.lockShared i = some m') :
    Tracks m' (Function.update mode i .shared) ∧ ∀ j, mode j ≠ .exclusive := by
  simp only [SharedMutex.lockShared] at hlock
  split_ifs at hlock with hnone
  cases hlock
  have hno : ∀ j, mode j ≠ .exclusive := by
    intro j hj
    have hex := (h.exclusive j).mpr hj
    rw [hnone] at hex
    cases hex
  refine ⟨⟨fun j => ?_, fun j => ?_⟩, hno⟩
  · by_cases hj : j = i
    · simp [hj]
    · simp [hj, h.shared j]
  · by_cases hj : j = i
    · simp [hj]
    · simp [hj, hno j]

/-- Letting go of a shared hold is tracked. -/
theorem unlockShared (h : Tracks m mode) (hi : mode i = .shared) :
    Tracks (m.unlockShared i) (Function.update mode i .free) := by
  refine ⟨fun j => ?_, fun j => ?_⟩
  · by_cases hj : j = i
    · simp [SharedMutex.unlockShared, hj]
    · simp [SharedMutex.unlockShared, hj, h.shared j]
  · by_cases hj : j = i
    · simp [SharedMutex.unlockShared, hj, h.exclusive i, hi]
    · simp [SharedMutex.unlockShared, hj, h.exclusive j]

/-- A thread that gets the lock exclusively finds nobody holding it. -/
theorem lock (h : Tracks m mode) (hlock : m.lock i = some m') :
    Tracks m' (Function.update mode i .exclusive) ∧ ∀ j, mode j = .free := by
  simp only [SharedMutex.lock] at hlock
  split_ifs at hlock with hboth
  cases hlock
  have hfree : ∀ j, mode j = .free := by
    intro j
    cases hmode : mode j with
    | free => rfl
    | shared =>
      have hmem := (h.shared j).mpr hmode
      rw [hboth.2] at hmem
      exact absurd hmem (Finset.notMem_empty j)
    | exclusive =>
      have hex := (h.exclusive j).mpr hmode
      rw [hboth.1] at hex
      cases hex
  refine ⟨⟨fun j => ?_, fun j => ?_⟩, hfree⟩
  · by_cases hj : j = i
    · simp [hj]
    · simp [hj, hfree j]
  · by_cases hj : j = i
    · simp [hj]
    · simp [hj, hfree j, Ne.symm hj]

/-- Letting go of the sole hold is tracked. -/
theorem unlock (h : Tracks m mode) (hi : mode i = .exclusive) :
    Tracks m.unlock (Function.update mode i .free) := by
  have hempty : m.shared = ∅ := m.excludes (by rw [(h.exclusive i).mpr hi]; rfl)
  refine ⟨fun j => ?_, fun j => ?_⟩
  · by_cases hj : j = i
    · simp [SharedMutex.unlock, hj, hempty]
    · simp [SharedMutex.unlock, hj, h.shared j]
  · by_cases hj : j = i
    · simp [SharedMutex.unlock, hj]
    · simp [SharedMutex.unlock, hj, h.alone hi hj]

end Tracks

end SharedMutex
