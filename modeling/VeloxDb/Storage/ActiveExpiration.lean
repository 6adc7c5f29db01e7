import VeloxDb.Common.Sweep
import VeloxDb.Storage.Engine

/-!
# Active expiration reaches every expired key

`active_expire` samples a few entries of each shard, from a cursor that it keeps between its calls.
While it erases, the map shrinks under the cursor: the next call begins `sampled` places behind where
this one began, modulo the smaller size, and not where this one ended.

A shard is the circle of its entries with the cursor in it, and a call is one `Sweep.round` on the
circle of each shard. So the results of `Sweep` are results about calls: which entries are examined,
what is erased, and that the expired entries run out.
-/

namespace VeloxDb

/-- An entry of a shard, with its key. -/
abbrev Slot := Σ _ : Bytes, Entry

/-- The deadline of the entry has come. -/
def Slot.due (now : TimePoint) (x : Slot) : Bool := x.2.expired now

namespace StorageEngine

open Sweep

/-! ## What a call does to a shard -/

/-- The sampling loop on shard `i` behind so many rounds. -/
def afterRounds (now : TimePoint) (i : ℕ) :
    ℕ → ℕ × ℕ × StorageEngine → Option (ℕ × ℕ × StorageEngine)
  | 0, s => some s
  | rounds + 1, s => (activeExpireBody now i s).bind (afterRounds now i rounds)

/-- The entry that the body of the loop dereferences; `none` is the end iterator. -/
def lookedAt (i : ℕ) (s : ℕ × ℕ × StorageEngine) : Option Slot := (s.2.2.shards i).map.entries[s.1]?

section Calls

variable (e : StorageEngine) (samplePerShard : ℕ) (now : TimePoint)

/-- The entries that a call examines in shard `i`, which only its own iteration changes: one in each
round of the loop. -/
def examined (i : ℕ) : List (Option Slot) :=
  let s := e.shards i
  let size := s.map.entries.length
  (List.range (min samplePerShard size)).map fun rounds =>
    (afterRounds now i rounds (s.expireCursor % size, 0, e)).bind (lookedAt i)

/-- The removals that a call counts for shard `i`. -/
def countedIn (i : ℕ) : ℕ := (activeExpireShard now samplePerShard (0, e) i).1

/-- The engine after so many calls, with no other operation in between. -/
def afterCalls (calls : ℕ) : StorageEngine :=
  (fun e => (activeExpire e samplePerShard now).2)^[calls] e

/-- The entries of a shard that have expired. -/
def expiredIn (i : ℕ) : ℕ := (e.shards i).map.entries.countP (Slot.due now)

/-- The entries of a shard as a circle, with the cursor. -/
def circle (i : ℕ) : List Slot × ℕ := ((e.shards i).map.entries, (e.shards i).expireCursor)

end Calls

/-! ## The loop is a pass -/

variable {e : StorageEngine} {now : TimePoint} {samplePerShard i : ℕ}

/-- Erasing in one shard leaves the others alone. -/
theorem shards_eraseEntryLocked_of_ne {j : ℕ} (hj : j ≠ i) (key : Bytes) (entry : Entry) :
    (e.eraseEntryLocked i key entry).shards j = e.shards j := Function.update_of_ne hj _ _

/-- The entry at the iterator is erased, and the others stay in their order. -/
theorem entries_eraseEntryLocked {pos : ℕ} {key : Bytes} {entry : Entry}
    (h : (e.shards i).map.entries[pos]? = some ⟨key, entry⟩) :
    ((e.eraseEntryLocked i key entry).shards i).map.entries
      = (e.shards i).map.entries.eraseIdx pos := by
  obtain ⟨hpos, hget⟩ := List.getElem?_eq_some_iff.mp h
  have hsplit : (e.shards i).map.entries
      = (e.shards i).map.entries.take pos ++ ⟨key, entry⟩ :: (e.shards i).map.entries.drop (pos + 1) := by
    rw [← hget, ← List.drop_eq_getElem_cons hpos, List.take_append_drop]
  have hbefore : key ∉ ((e.shards i).map.entries.take pos).keys := by
    have hkeys := (e.shards i).map.nodupKeys
    rw [hsplit, List.NodupKeys, List.keys, List.map_append, List.map_cons] at hkeys
    intro hmem
    exact (List.nodup_middle.mp hkeys).notMem (List.mem_append_left _ hmem)
  have hshard : ((e.eraseEntryLocked i key entry).shards i).map.entries
      = (e.shards i).map.entries.kerase key := by
    have hself := Function.update_self i { e.shards i with
      map := (e.shards i).map.erase key
      memoryBytes := (e.shards i).memoryBytes - entryMemory key entry.value } e.shards
    exact congrArg (fun s => s.map.entries) hself
  rw [hshard, List.eraseIdx_eq_take_drop_succ]
  conv_lhs => rw [hsplit]
  rw [List.kerase_append_right hbefore]
  exact congrArg _ (List.kerase_cons_eq rfl)

/-- A round with an entry at the iterator. -/
theorem activeExpireBody_of_get {pos count : ℕ} {x : Slot}
    (hget : (e.shards i).map.entries[pos]? = some x) :
    activeExpireBody now i (pos, count, e)
      = some (if Slot.due now x then
          (wrap pos ((e.eraseEntryLocked i x.1 x.2).shards i).map.entries.length, count + 1,
            e.eraseEntryLocked i x.1 x.2)
        else (wrap (pos + 1) (e.shards i).map.entries.length, count, e)) := by
  rw [activeExpireBody]
  by_cases hdue : Slot.due now x = true
  · have hexp : x.2.expired now = true := hdue
    simp only [hget, hexp, if_true, hdue]
    rfl
  · have hexp : ¬ x.2.expired now = true := hdue
    simp only [hget, hexp, hdue, Bool.false_eq_true, if_false]
    rfl

/-- **The loop takes all its samples** where none of its rounds looks behind the last entry. -/
theorem activeExpireLoop_of_afterRounds {left pos count pos' count' : ℕ} {e' : StorageEngine}
    (h : afterRounds now i left (pos, count, e) = some (pos', count', e')) (sampled : ℕ) :
    activeExpireLoop now i left pos sampled count e = (sampled + left, count', e') := by
  induction left generalizing pos count e sampled with
  | zero =>
    cases h
    rfl
  | succ left ih =>
    obtain ⟨⟨pos₁, count₁, e₁⟩, hbody, hrest⟩ := Option.bind_eq_some_iff.mp h
    have hne : (e.shards i).map.entries ≠ [] := by
      intro hnil
      rw [activeExpireBody, hnil] at hbody
      cases hbody
    rw [activeExpireLoop, if_neg hne, hbody]
    exact (ih hrest (sampled + 1)).trans (by rw [Nat.add_assoc, Nat.add_comm 1])

/-- What the rounds on shard `i` leave: they have counted what they erased, and left the other shards.
-/
structure RoundsDone (now : TimePoint) (i left pos count : ℕ) (e : StorageEngine)
    (result : ℕ × StorageEngine) : Prop where
  counted : result.1
    = count + (((e.shards i).map.entries.rotate pos).take left).countP (Slot.due now)
  entries : (result.2.shards i).map.entries
    = Sweep.pass (Slot.due now) left pos (e.shards i).map.entries
  others : ∀ j ≠ i, result.2.shards j = e.shards j
  setup : result.2.setup = e.setup

/-- The rounds that the entries leave room for are a pass over the circle. -/
theorem afterRounds_done {left pos : ℕ} (count : ℕ) (h : Fits left pos (e.shards i).map.entries) :
    ∃ pos' count' e', afterRounds now i left (pos, count, e) = some (pos', count', e') ∧
      RoundsDone now i left pos count e (count', e') := by
  induction left generalizing pos count e with
  | zero => exact ⟨pos, count, e, rfl, rfl, rfl, fun _ _ => rfl, rfl⟩
  | succ left ih =>
    obtain ⟨x, rest, hget, hrotate, hle, ⟨heraseR, hefits⟩, hkeepR, hkfits⟩ := h.step
    rw [afterRounds, activeExpireBody_of_get hget, Option.bind_some]
    by_cases hdue : Slot.due now x = true
    · -- the entry is erased, and the iterator stays where it is
      have hentries := entries_eraseEntryLocked hget
      rw [if_pos hdue]
      obtain ⟨pos', count', e', hrounds, hrest⟩ := ih (count + 1) (hentries.symm ▸ hefits)
      refine ⟨pos', count', e', hrounds, ?_, ?_, fun j hj => ?_, hrest.setup⟩
      · refine hrest.counted.trans ?_
        rw [hentries, heraseR, hrotate, List.take_succ_cons, List.countP_cons_of_pos hdue]
        omega
      · refine hrest.entries.trans ?_
        rw [hentries, Sweep.pass, hget]
        simp only
        rw [if_pos hdue]
      · exact (hrest.others j hj).trans (shards_eraseEntryLocked_of_ne hj x.1 x.2)
    · rw [if_neg hdue]
      obtain ⟨pos', count', e', hrounds, hrest⟩ := ih count hkfits
      refine ⟨pos', count', e', hrounds, ?_, ?_, hrest.others, hrest.setup⟩
      · refine hrest.counted.trans ?_
        rw [hkeepR, List.take_append_of_le_length hle, hrotate, List.take_succ_cons,
          List.countP_cons_of_neg hdue]
      · refine hrest.entries.trans ?_
        rw [Sweep.pass, hget]
        simp only
        rw [if_neg hdue]

/-- The rounds look at the entries in front of the iterator, one after the other, and never behind the
last. -/
theorem lookedAt_afterRounds {left pos : ℕ} (count : ℕ) (h : Fits left pos (e.shards i).map.entries) :
    (List.range left).map (fun rounds => (afterRounds now i rounds (pos, count, e)).bind (lookedAt i))
      = (((e.shards i).map.entries.rotate pos).take left).map some := by
  induction left generalizing pos count e with
  | zero => rfl
  | succ left ih =>
    obtain ⟨x, rest, hget, hrotate, hle, ⟨heraseR, hefits⟩, hkeepR, hkfits⟩ := h.step
    have hfirst : (afterRounds now i 0 (pos, count, e)).bind (lookedAt i) = some x := hget
    rw [List.range_succ_eq_map, List.map_cons, List.map_map, hfirst, hrotate, List.take_succ_cons,
      List.map_cons]
    simp only [Function.comp_def, afterRounds, activeExpireBody_of_get hget, Option.bind_some]
    congr 1
    by_cases hdue : Slot.due now x = true
    · have hentries := entries_eraseEntryLocked hget
      simp only [if_pos hdue]
      rw [ih (count + 1) (hentries.symm ▸ hefits), hentries, heraseR]
    · simp only [if_neg hdue]
      rw [ih count hkfits, hkeepR, List.take_append_of_le_length hle]

/-! ## A call is a round -/

/-- What one iteration of the shard loop returns. -/
structure ShardDone (now : TimePoint) (samplePerShard i count : ℕ) (e : StorageEngine)
    (result : ℕ × StorageEngine) : Prop where
  counted : result.1 = count + (window samplePerShard (e.circle i)).countP (Slot.due now)
  circle : result.2.circle i = Sweep.round (Slot.due now) samplePerShard (e.circle i)
  others : ∀ j ≠ i, result.2.shards j = e.shards j
  setup : result.2.setup = e.setup

/-- **What a call does to one shard**: a round of the sweep. -/
theorem activeExpireShard_done (now : TimePoint) (samplePerShard i count : ℕ) (e : StorageEngine) :
    ShardDone now samplePerShard i count e (activeExpireShard now samplePerShard (count, e) i) := by
  rw [activeExpireShard]
  simp only
  by_cases hsize : (e.shards i).map.entries.length = 0
  · have hs : (e.circle i).1.length = 0 := hsize
    rw [if_pos hsize]
    refine ⟨?_, ?_, fun j hj => Function.update_of_ne hj _ _, rfl⟩
    · simp [window, List.length_eq_zero_iff.mp hs]
    · rw [Sweep.round, if_pos hs]
      simp [circle, withShard]
  · have hs : (e.circle i).1.length ≠ 0 := hsize
    rw [if_neg hsize]
    obtain ⟨pos', count', e', hrounds, hdone⟩ : ∃ pos' count' e',
        afterRounds now i (min samplePerShard (e.shards i).map.entries.length)
          ((e.shards i).expireCursor % (e.shards i).map.entries.length, count, e)
            = some (pos', count', e') ∧ RoundsDone now i _ _ count e (count', e') :=
      afterRounds_done count (fits_window hs)
    rw [activeExpireLoop_of_afterRounds hrounds]
    refine ⟨hdone.counted, ?_, fun j hj => ?_, hdone.setup⟩
    · rw [Sweep.round, if_neg hs]
      simp only [circle, withShard, Function.update_self]
      rw [hdone.entries, Nat.zero_add]
      rfl
    · exact (Function.update_of_ne hj _ _).trans (hdone.others j hj)

/-- A call counts the expired entries that it meets. -/
theorem countedIn_eq (e : StorageEngine) (now : TimePoint) (samplePerShard i : ℕ) :
    e.countedIn samplePerShard now i = (window samplePerShard (e.circle i)).countP (Slot.due now) := by
  rw [countedIn, (activeExpireShard_done now samplePerShard i 0 e).counted, Nat.zero_add]

/-- The shard loop: each shard that it comes to makes its round, and the others stay. -/
theorem foldl_activeExpireShard (now : TimePoint) (samplePerShard : ℕ) {shards : List ℕ}
    (hnodup : shards.Nodup) (count : ℕ) (e : StorageEngine) :
    (shards.foldl (activeExpireShard now samplePerShard) (count, e)).1
        = count + (shards.map (e.countedIn samplePerShard now)).sum ∧
      (∀ j, (shards.foldl (activeExpireShard now samplePerShard) (count, e)).2.circle j
        = if j ∈ shards then Sweep.round (Slot.due now) samplePerShard (e.circle j) else e.circle j) ∧
      (shards.foldl (activeExpireShard now samplePerShard) (count, e)).2.setup = e.setup := by
  induction shards generalizing count e with
  | nil => simp
  | cons i shards ih =>
    obtain ⟨hi, hnodup⟩ := List.nodup_cons.mp hnodup
    have hdone := activeExpireShard_done now samplePerShard i count e
    have hothers : ∀ j ≠ i, (activeExpireShard now samplePerShard (count, e) i).2.circle j
        = e.circle j := by
      intro j hj
      rw [circle, circle, hdone.others j hj]
    obtain ⟨hcount, hcircle, hsetup⟩ := ih hnodup
      (activeExpireShard now samplePerShard (count, e) i).1
      (activeExpireShard now samplePerShard (count, e) i).2
    rw [List.foldl_cons]
    refine ⟨?_, fun j => ?_, hsetup.trans hdone.setup⟩
    · have hsame : shards.map
          ((activeExpireShard now samplePerShard (count, e) i).2.countedIn samplePerShard now)
          = shards.map (e.countedIn samplePerShard now) := by
        refine List.map_congr_left fun j hj => ?_
        rw [countedIn_eq, countedIn_eq, hothers j (fun h => hi (h ▸ hj))]
      rw [hcount, hdone.counted, hsame, List.map_cons, List.sum_cons, countedIn_eq, Nat.add_assoc]
    · rw [hcircle]
      by_cases hj : j = i
      · subst hj
        rw [if_neg hi, if_pos List.mem_cons_self, hdone.circle]
      · rw [hothers j hj]
        simp [hj]

/-- A call leaves the setup alone. -/
theorem setup_activeExpire : (e.activeExpire samplePerShard now).2.setup = e.setup :=
  (foldl_activeExpireShard now samplePerShard List.nodup_range 0 e).2.2

/-- Over all shards a call is one round in each. -/
theorem circle_activeExpire (hi : i < e.setup.shardCount) :
    (e.activeExpire samplePerShard now).2.circle i
      = Sweep.round (Slot.due now) samplePerShard (e.circle i) := by
  obtain ⟨-, hcircle, -⟩ := foldl_activeExpireShard now samplePerShard
    (List.nodup_range (n := e.setup.shardCount)) 0 e
  exact (hcircle i).trans (if_pos (List.mem_range.mpr hi))

/-- One more call. -/
theorem afterCalls_succ (calls : ℕ) :
    e.afterCalls samplePerShard now (calls + 1)
      = ((e.afterCalls samplePerShard now calls).activeExpire samplePerShard now).2 :=
  Function.iterate_succ_apply' _ _ _

/-- Calls are rounds. -/
theorem circle_afterCalls (hi : i < e.setup.shardCount) (calls : ℕ) :
    (e.afterCalls samplePerShard now calls).circle i
        = (Sweep.round (Slot.due now) samplePerShard)^[calls] (e.circle i) ∧
      (e.afterCalls samplePerShard now calls).setup = e.setup := by
  induction calls with
  | zero => exact ⟨rfl, rfl⟩
  | succ calls ih =>
    obtain ⟨hcircle, hsetup⟩ := ih
    rw [afterCalls_succ]
    refine ⟨?_, setup_activeExpire.trans hsetup⟩
    rw [circle_activeExpire (hsetup.symm ▸ hi), hcircle, Function.iterate_succ_apply']

/-! ## The results -/

/-- What a call does to shard `i`: it examines as many distinct entries as it may, never the end
iterator, erases those of them that have expired, counts them, and leaves the cursor in the map. -/
structure Samples (e : StorageEngine) (samplePerShard : ℕ) (now : TimePoint) (i : ℕ)
    (window : List Slot) : Prop where
  examined : e.examined samplePerShard now i = window.map some
  distinct : window.Nodup
  subset : window ⊆ (e.shards i).map.entries
  length : window.length = min samplePerShard (e.shards i).map.entries.length
  erased : ((e.activeExpire samplePerShard now).2.shards i).map.entries
    = (e.shards i).map.entries.filter fun x => decide ¬ (x ∈ window ∧ x.2.expired now = true)
  counted : e.countedIn samplePerShard now i = window.countP fun x => x.2.expired now
  cursor_lt : ((e.activeExpire samplePerShard now).2.shards i).map.entries ≠ [] →
    ((e.activeExpire samplePerShard now).2.shards i).expireCursor
      < ((e.activeExpire samplePerShard now).2.shards i).map.entries.length
  cursor_zero : ((e.activeExpire samplePerShard now).2.shards i).map.entries = [] →
    ((e.activeExpire samplePerShard now).2.shards i).expireCursor = 0

/-- A call looks at the window of its round. -/
theorem samples_window (hi : i < e.setup.shardCount) :
    Samples e samplePerShard now i (window samplePerShard (e.circle i)) := by
  have hnodup : (e.circle i).1.Nodup := (e.shards i).map.nodupKeys.nodup
  have hcircle : (e.activeExpire samplePerShard now).2.circle i = _ := circle_activeExpire hi
  refine ⟨?_, window_nodup hnodup, window_subset, length_window, ?_, countedIn_eq e now _ i, ?_, ?_⟩
  · by_cases hsize : (e.circle i).1.length = 0
    · have hs : (e.shards i).map.entries.length = 0 := hsize
      simp [examined, window, hs, List.length_eq_zero_iff.mp hsize]
    · exact lookedAt_afterRounds 0 (fits_window (s := e.circle i) hsize)
  · exact (congrArg Prod.fst hcircle).trans (round_fst_eq_filter hnodup)
  · intro hne
    have hlt : (Sweep.round (Slot.due now) samplePerShard (e.circle i)).1 ≠ [] → _ := round_snd_lt
    rw [← hcircle] at hlt
    exact hlt hne
  · intro hnil
    have hzero : (Sweep.round (Slot.due now) samplePerShard (e.circle i)).1 = [] → _ := round_snd_of_nil
    rw [← hcircle] at hzero
    exact hzero hnil

/-- **Active expiration reaches every expired key.** A call examines as many distinct entries of a
shard as it may and erases the expired ones among them; and after as many calls as the shard has
expired entries times entries, none of them is left, and the calls have counted each of them. What a
call counts for the shards is together what it returns. -/
theorem active_expiration_complete (e : StorageEngine) (now : TimePoint) {samplePerShard i : ℕ}
    (hsample : 1 ≤ samplePerShard) (hi : i < e.setup.shardCount) :
    (∃ window, Samples e samplePerShard now i window) ∧
      (e.activeExpire samplePerShard now).1
        = ∑ j ∈ Finset.range e.setup.shardCount, e.countedIn samplePerShard now j ∧
      (e.afterCalls samplePerShard now
        (e.expiredIn now i * (e.shards i).map.entries.length)).expiredIn now i = 0 ∧
      ∑ j ∈ Finset.range (e.expiredIn now i * (e.shards i).map.entries.length),
        (e.afterCalls samplePerShard now j).countedIn samplePerShard now i = e.expiredIn now i := by
  -- what is left after so many calls is what so many rounds leave of the circle
  have hleft : ∀ calls, (e.afterCalls samplePerShard now calls).expiredIn now i
      = ((Sweep.round (Slot.due now) samplePerShard)^[calls] (e.circle i)).1.countP (Slot.due now) :=
    fun calls => congrArg (fun c => c.1.countP (Slot.due now)) (circle_afterCalls hi calls).1
  have hnone := (hleft (e.expiredIn now i * (e.shards i).map.entries.length)).trans
    (countP_iterate hsample le_rfl)
  refine ⟨⟨_, samples_window hi⟩, ?_, hnone, ?_⟩
  · obtain ⟨hcount, -⟩ := foldl_activeExpireShard now samplePerShard
      (List.nodup_range (n := e.setup.shardCount)) 0 e
    rw [Nat.zero_add] at hcount
    exact hcount
  · have hsum := sum_countP_window (Slot.due now) samplePerShard (e.circle i)
      (e.expiredIn now i * (e.shards i).map.entries.length)
    rw [← hleft, hnone, Nat.add_zero] at hsum
    refine (Finset.sum_congr rfl fun j _ => ?_).trans hsum
    rw [countedIn_eq, (circle_afterCalls hi j).1]

/-- One shard with two entries, of which one has expired at time 5, and a cursor beyond its end. -/
def oneDue : StorageEngine :=
  { setup := ⟨{ shards := 1 }, {}, fun _ => 0⟩
    shards := fun _ =>
      { map := AList.insert (ascii "live") ⟨ascii "1", none, 1, 0⟩
          (AList.singleton (ascii "due") ⟨ascii "2", some 3, 1, 0⟩)
        expireCursor := 6 } }

theorem oneDue_reached :
    (∃ window, Samples oneDue 1 5 0 window) ∧
      (oneDue.activeExpire 1 5).1
        = ∑ j ∈ Finset.range oneDue.setup.shardCount, oneDue.countedIn 1 5 j ∧
      (oneDue.afterCalls 1 5 (oneDue.expiredIn 5 0 * (oneDue.shards 0).map.entries.length)).expiredIn 5 0
        = 0 ∧
      ∑ j ∈ Finset.range (oneDue.expiredIn 5 0 * (oneDue.shards 0).map.entries.length),
        (oneDue.afterCalls 1 5 j).countedIn 1 5 0 = oneDue.expiredIn 5 0 :=
  active_expiration_complete oneDue 5 (by decide) (by decide)

end StorageEngine

end VeloxDb
