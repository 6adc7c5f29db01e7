import Mathlib.Data.List.Basic

/-!
# The last write wins

A record is built by a list of writes, each of which may be refused. What one of its fields holds in
the end is what the last write to it has written, or else what was there before. Where the list is
made of layers, a later layer hides an earlier one.
-/

namespace Layers

variable {σ ε α β : Type}

/-- What the last write to a field writes, where `writes` says what a single one does. -/
def lastWrite (writes : α → Option β) (l : List α) : Option β := (l.filterMap writes).getLast?

variable {writes : α → Option β} {l l' : List α} {a : α}

/-- **A later layer hides an earlier one.** -/
theorem lastWrite_append : lastWrite writes (l ++ l') = (lastWrite writes l').or (lastWrite writes l) := by
  rw [lastWrite, List.filterMap_append, List.getLast?_append]
  rfl

/-- A later write hides an earlier one. -/
theorem lastWrite_cons : lastWrite writes (a :: l) = (lastWrite writes l).or (writes a) := by
  rw [← List.singleton_append, lastWrite_append]
  congr 1
  cases ha : writes a <;> simp [lastWrite, ha]

/-- The last write is one of the list. -/
theorem exists_of_lastWrite {b : β} (h : lastWrite writes l = some b) : ∃ a ∈ l, writes a = some b :=
  List.mem_filterMap.mp (List.mem_of_getLast? h)

/-- Writes one after another, up to the first that is refused. -/
theorem read_foldlM {apply : σ → α → Except ε σ} {g : σ → β}
    (hstep : ∀ s a s', apply s a = .ok s' → g s' = (writes a).getD (g s)) {s s' : σ}
    (h : l.foldlM apply s = .ok s') : g s' = (lastWrite writes l).getD (g s) := by
  induction l generalizing s with
  | nil =>
    cases h
    rfl
  | cons a l ih =>
    rw [List.foldlM_cons] at h
    cases ha : apply s a with
    | error e =>
      rw [ha] at h
      cases h
    | ok s₁ =>
      rw [ha] at h
      rw [ih h, hstep s a s₁ ha, lastWrite_cons]
      cases lastWrite writes l <;> rfl

end Layers
