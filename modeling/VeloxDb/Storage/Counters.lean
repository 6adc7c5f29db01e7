import VeloxDb.Common.Checked
import VeloxDb.Recovery.Reachable

/-!
# Counters

The overflow test of `incr_by` is exact, and none of its 64-bit expressions overflows: `incr_by` once
more, with these expressions made visible, meets no fault. The decimal form that a call stores is
what the next call reads, so a run of calls counts as the integers do
(`Counts`): a sum that fits is returned and stored, one that does not is refused and leaves the
engine as it was.
-/

namespace VeloxDb

open Decimal Util

/-! ## The test -/

/-- The guard of `incr_by` finds exactly the sums that do not fit. -/
theorem overflows_eq_true_iff {current delta : ℤ} (hcurrent : InI64 current) (hdelta : InI64 delta) :
    overflows current delta = true ↔ ¬ InI64 (current + delta) := by
  simp only [overflows, Bool.or_eq_true, Bool.and_eq_true, decide_eq_true_eq]
  simp only [InI64, int64Min, int64Max] at *
  omega

/-- The two sides of the test of `incr_by` with their faults: what stands behind `&&` is evaluated only
where what is in front of it holds. -/
def checkedAbove (current delta : ℤ) : Checked Bool :=
  if delta > 0 then do
    let most ← Checked.int64 (int64Max - delta)
    return decide (current > most)
  else return false

/-- The second half of the guard, its difference checked. -/
def checkedBelow (current delta : ℤ) : Checked Bool :=
  if delta < 0 then do
    let least ← Checked.int64 (int64Min - delta)
    return decide (current < least)
  else return false

/-- The test of `incr_by` with its faults. -/
def checkedOverflows (current delta : ℤ) : Checked Bool := do
  if (← checkedAbove current delta) then return true
  else checkedBelow current delta

/-- What fits into an `int64_t` is no fault. -/
theorem int64_eq_of_inI64 {x : ℤ} (h : InI64 x) : Checked.int64 x = .ok x := by
  simp only [InI64, int64Min, int64Max] at h
  exact Checked.int64_eq (by omega)

/-- The test meets no fault, also for the least delta. -/
theorem checkedOverflows_eq {current delta : ℤ} (hdelta : InI64 delta) :
    checkedOverflows current delta = .ok (overflows current delta) := by
  have habove : checkedAbove current delta
      = .ok (decide (delta > 0) && decide (current > int64Max - delta)) := by
    by_cases hpos : delta > 0
    · have hmost : InI64 (int64Max - delta) := by
        simp only [InI64, int64Min, int64Max] at hdelta ⊢
        omega
      rw [checkedAbove, if_pos hpos, int64_eq_of_inI64 hmost, Checked.ok_bind, decide_eq_true hpos,
        Bool.true_and]
      rfl
    · rw [checkedAbove, if_neg hpos, decide_eq_false hpos, Bool.false_and]
      rfl
  have hbelow : checkedBelow current delta
      = .ok (decide (delta < 0) && decide (current < int64Min - delta)) := by
    by_cases hneg : delta < 0
    · have hleast : InI64 (int64Min - delta) := by
        simp only [InI64, int64Min, int64Max] at hdelta ⊢
        omega
      rw [checkedBelow, if_pos hneg, int64_eq_of_inI64 hleast, Checked.ok_bind, decide_eq_true hneg,
        Bool.true_and]
      rfl
    · rw [checkedBelow, if_neg hneg, decide_eq_false hneg, Bool.false_and]
      rfl
  rw [checkedOverflows, habove, Checked.ok_bind, hbelow, overflows]
  cases decide (delta > 0) && decide (current > int64Max - delta) <;> rfl

/-! ## The stored number -/

/-- A stored number is read back. -/
theorem parseIntegerValue_printInt {i : ℤ} (hi : InI64 i) : parseIntegerValue (printInt i) = some i := by
  rw [parseIntegerValue, if_neg (printInt_ne_nil i), wholeI64_printInt hi]

/-- `incr_by` refused the key or the value for its size, or there was no memory for it. -/
def WriteResult.Refused (r : WriteResult) : Prop :=
  r.code = .keyTooLarge ∨ r.code = .valueTooLarge ∨ r.code = .noMemory

namespace StorageEngine

variable {e e' : StorageEngine} {key : Bytes} {now : TimePoint} {v delta : ℤ}

/-- The number under the key, as `incr_by` reads it. -/
def holds (e : StorageEngine) (now : TimePoint) (key : Bytes) : Option ℤ :=
  currentInteger ((e.keyspace.visible now key).map Item.value)

/-- `incr_by` with the faults of its `int64_t` arithmetic. -/
def checkedIncrBy (e : StorageEngine) (key : Bytes) (delta : ℤ) (now : TimePoint) :
    Checked (WriteResult × StorageEngine) :=
  if !e.setup.keyValid key then return ({ code := .keyTooLarge }, e)
  else
    let (it, e) := e.findLive key now
    match currentInteger (it.map Entry.value) with
    | none => return ({ code := .invalidInteger }, e)
    | some current => do
      if (← checkedOverflows current delta) then return ({ code := .overflow }, e)
      else do
        let next ← Checked.int64 (current + delta)
        let nextValue := printInt next
        if !e.setup.valueValid nextValue then return ({ code := .valueTooLarge }, e)
        else
          match e.storeEntry key nextValue none now with
          | (.ok, e) => return ({ code := .ok, integer := next }, e)
          | (code, e) => return ({ code }, e)

/-- **`incr_by` meets no fault**, and what it returns is what `incrBy` returns. -/
theorem checkedIncrBy_eq (e : StorageEngine) (key : Bytes) (hdelta : InI64 delta) (now : TimePoint) :
    e.checkedIncrBy key delta now = .ok (e.incrBy key delta now) := by
  rw [checkedIncrBy, incrBy]
  refine Checked.ite_eq_ok (fun _ => rfl) fun _ => ?_
  simp only
  cases hcurrent : currentInteger ((e.findLive key now).1.map Entry.value) with
  | none => rfl
  | some current =>
    simp only [checkedOverflows_eq hdelta, Checked.ok_bind]
    refine Checked.ite_eq_ok (fun _ => rfl) fun hover => ?_
    -- behind the test the sum fits
    have hsum : InI64 (current + delta) := by
      by_contra hnot
      exact hover ((overflows_eq_true_iff (inI64_currentInteger hcurrent) hdelta).mpr hnot)
    rw [int64_eq_of_inI64 hsum, Checked.ok_bind]
    refine Checked.ite_eq_ok (fun _ => rfl) fun _ => ?_
    cases (e.findLive key now).2.storeEntry key (printInt (current + delta)) none now with
    | mk code e' => cases code <;> rfl

/-- **A call that is not refused** adds exactly if the sum is a number of 64 bits, and otherwise reports
an overflow and changes nothing. -/
theorem incrBy_exact (h : e.WF) (hholds : e.holds now key = some v) (hdelta : InI64 delta)
    (hrefused : ¬ (e.incrBy key delta now).1.Refused) :
    (InI64 (v + delta) ∧ ∃ e', e.incrBy key delta now = (⟨.ok, v + delta⟩, e') ∧
      Becomes e e' (Function.update e.keyspace key (some ⟨printInt (v + delta), none⟩))) ∨
    (¬ InI64 (v + delta) ∧ e.incrBy key delta now = (⟨.overflow, 0⟩, e)) := by
  have hv := inI64_currentInteger hholds
  have hkey : e.setup.keyValid key = true := by
    by_contra hno
    exact hrefused (.inl (by simp [incrBy, hno]))
  have hcurrent : currentInteger ((e.findLive key now).1.map Entry.value) = some v := by
    rw [value_findLive h]
    exact hholds
  by_cases hrange : InI64 (v + delta)
  · have hover : ¬ overflows v delta = true := fun ho =>
      (overflows_eq_true_iff hv hdelta).mp ho hrange
    have hnext : nextInteger delta (e.keyspace.visible now key) = some (v + delta) := by
      rw [nextInteger, show currentInteger _ = some v from hholds, Option.bind_some, if_neg hover]
    by_cases hadmits : e.Admits key (printInt (v + delta))
    · exact .inl ⟨hrange, incrBy_of_admits h hnext hadmits⟩
    · -- the size of the value or the memory is the only reason left
      have hsetup := (findLive_spec h key now).1.setup
      refine absurd ?_ hrefused
      by_cases hvalue : e.setup.valueValid (printInt (v + delta)) = true
      · have hfit : ¬ e.Fits key (printInt (v + delta)) := fun hf => hadmits ⟨hkey, hvalue, hf⟩
        refine .inr (.inr ?_)
        simp [incrBy, hkey, hcurrent, hover, hsetup, hvalue, store_of_not_fits h hfit]
      · refine .inr (.inl ?_)
        simp [incrBy, hkey, hcurrent, hover, hsetup, hvalue]
  · have hover := (overflows_eq_true_iff hv hdelta).mpr hrange
    refine .inr ⟨hrange, ?_⟩
    -- from a missing key every sum is in range, so there is an entry and it is live
    rcases findLive_cases h key now with ⟨e', -, hnone, -⟩ | ⟨x, hlive, -, -⟩
    · rw [holds, hnone] at hholds
      cases hholds
      exact absurd (by simpa using hdelta) hrange
    · rw [hlive] at hcurrent
      simp only [incrBy, hkey, hlive, hcurrent, hover, Bool.not_true, Bool.false_eq_true, if_false,
        if_true]

/-! ## Runs -/

/-- No call of the run is refused for a size or for memory. -/
def Unrefused (key : Bytes) : StorageEngine → List (ℤ × TimePoint) → Prop
  | _, [] => True
  | e, (delta, now) :: calls => ¬ (e.incrBy key delta now).1.Refused ∧
      Unrefused key (e.incrBy key delta now).2 calls

/-- The calls count from `v` on: each returns the exact sum and stores its decimal form, which reads
back as the same number, or the sum does not fit, the call says so and the engine is unchanged. -/
inductive Counts (key : Bytes) : StorageEngine → ℤ → List (ℤ × TimePoint) → Prop
  | nil {e : StorageEngine} {v : ℤ} : Counts key e v []
  | ok {e e' : StorageEngine} {v delta : ℤ} {now : TimePoint} {entry : Entry}
      {calls : List (ℤ × TimePoint)} (hrange : InI64 (v + delta))
      (hcall : e.incrBy key delta now = (⟨.ok, v + delta⟩, e'))
      (hstored : e'.find key = some entry) (hvalue : entry.value = printInt (v + delta))
      (hreads : parseIntegerValue entry.value = some (v + delta))
      (hrest : Counts key e' (v + delta) calls) : Counts key e v ((delta, now) :: calls)
  | overflow {e : StorageEngine} {v delta : ℤ} {now : TimePoint} {calls : List (ℤ × TimePoint)}
      (hrange : ¬ InI64 (v + delta)) (hcall : e.incrBy key delta now = (⟨.overflow, 0⟩, e))
      (hrest : Counts key e v calls) : Counts key e v ((delta, now) :: calls)

/-- Calls that are not refused add up. -/
theorem counts_of_unrefused {calls : List (ℤ × TimePoint)} (h : e.WF)
    (hholds : ∀ c ∈ calls, e.holds c.2 key = some v) (hdeltas : ∀ c ∈ calls, InI64 c.1)
    (hrun : Unrefused key e calls) : Counts key e v calls := by
  induction calls generalizing e v with
  | nil => exact .nil
  | cons c calls ih =>
    obtain ⟨delta, now⟩ := c
    obtain ⟨hrefused, hrest⟩ := hrun
    have hdeltas' : ∀ c ∈ calls, InI64 c.1 := fun c hc => hdeltas c (List.mem_cons_of_mem _ hc)
    rcases incrBy_exact h (hholds _ List.mem_cons_self) (hdeltas _ List.mem_cons_self) hrefused with
      ⟨hrange, e', hcall, hb⟩ | ⟨hrange, hcall⟩
    · rw [hcall] at hrest
      have hitem : e'.keyspace key = some ⟨printInt (v + delta), none⟩ := by
        rw [hb.keyspace, Function.update_self]
      obtain ⟨entry, hfind, hentry⟩ := keyspace_eq_some.mp hitem
      have hvalue : entry.value = printInt (v + delta) := congrArg Item.value hentry
      have hreads := parseIntegerValue_printInt hrange
      -- without a deadline the new number is there at every later reading
      refine .ok hrange hcall hfind hvalue (hvalue ▸ hreads) (ih hb.wf (fun c _ => ?_) hdeltas' hrest)
      have hvisible : e'.keyspace.visible c.2 key = some ⟨printInt (v + delta), none⟩ :=
        Keyspace.visible_eq_some.mpr ⟨hitem, rfl⟩
      rw [holds, hvisible]
      exact hreads
    · rw [hcall] at hrest
      exact .overflow hrange hcall
        (ih h (fun c hc => hholds c (List.mem_cons_of_mem _ hc)) hdeltas' hrest)

end StorageEngine

open StorageEngine in
/-- **Counters are exact.** From a key that holds `v`, or from a missing or expired one and zero,
calls of `incr_by` with any deltas count exactly as long as none is refused for a size or for
memory. No call meets a fault in its 64-bit arithmetic, whatever the key holds. -/
theorem counter_exact {setup : StorageSetup} {e : StorageEngine} (hreach : e.Reachable setup)
    {key : Bytes} {v : ℤ} {calls : List (ℤ × TimePoint)}
    (hholds : ∀ c ∈ calls, e.holds c.2 key = some v) (hdeltas : ∀ c ∈ calls, InI64 c.1)
    (hrun : Unrefused key e calls) :
    Counts key e v calls ∧ ∀ (e : StorageEngine) key delta now, InI64 delta →
      e.checkedIncrBy key delta now = .ok (e.incrBy key delta now) :=
  ⟨counts_of_unrefused hreach.wf hholds hdeltas hrun,
    fun e key _ now hdelta => e.checkedIncrBy_eq key hdelta now⟩

set_option maxRecDepth 100000 in
/-- Down to the least number, and no further. -/
theorem counter_exact_at_minimum :
    let e : StorageEngine := { setup := ⟨{}, {}, fun _ => 0⟩ }
    let calls : List (ℤ × TimePoint) := [(int64Min, 0), (-1, 0), (int64Max, 0)]
    StorageEngine.Counts (ascii "k") e 0 calls ∧
      e.checkedIncrBy (ascii "k") int64Min 0 = .ok (e.incrBy (ascii "k") int64Min 0) := by
  intro e calls
  have hreach : e.Reachable e.setup := .new
  have hrun : StorageEngine.Unrefused (ascii "k") e calls := by
    simp only [calls, StorageEngine.Unrefused, WriteResult.Refused]
    decide +kernel
  obtain ⟨hcounts, hchecked⟩ := counter_exact hreach (fun _ _ => rfl) (by decide) hrun
  exact ⟨hcounts, hchecked e _ _ _ (by decide)⟩

end VeloxDb
