import VeloxDb.Storage.Operations

/-!
# The memory limit taken away

The limit only decides whether a write is refused. So on the engine without it (`unlimit`) every
operation does the same, unless the limit refuses a write.
-/

namespace VeloxDb

open Decimal Util

/-- The same setup without a memory limit. -/
def StorageSetup.unlimited (s : StorageSetup) : StorageSetup :=
  { s with config := { s.config with maxMemoryBytes := 0 } }

namespace StorageSetup

variable (s : StorageSetup)

/-- The same keys are valid. -/
@[simp] theorem keyValid_unlimited (key : Bytes) : s.unlimited.keyValid key = s.keyValid key := rfl

/-- The same values are valid. -/
@[simp] theorem valueValid_unlimited (value : Bytes) : s.unlimited.valueValid value = s.valueValid value :=
  rfl

end StorageSetup

namespace StorageEngine

/-- The same engine without a memory limit. -/
def unlimit (e : StorageEngine) : StorageEngine :=
  { e with setup := e.setup.unlimited, usedMemory := 0 }

variable {e : StorageEngine} {key : Bytes} {now : TimePoint}

/-- The setup has no limit. -/
@[simp] theorem setup_unlimit (e : StorageEngine) : e.unlimit.setup = e.setup.unlimited := rfl

/-- The entries are the same. -/
@[simp] theorem find_unlimit (e : StorageEngine) (k : Bytes) : e.unlimit.find k = e.find k := rfl

/-- The shards are the same. -/
@[simp] theorem shards_unlimit (e : StorageEngine) : e.unlimit.shards = e.shards := rfl

/-- An engine whose memory is accounted for is well formed without the limit. -/
theorem WF.unlimit (h : e.WF) : e.unlimit.WF :=
  ⟨⟨h.home, h.memory, fun _ => rfl, fun hmax => absurd rfl hmax, fun hmax => absurd rfl hmax⟩, h.sizes⟩

/-! ## Primitive steps -/

/-- Replacing a shard. -/
@[simp] theorem withShard_unlimit (e : StorageEngine) (i : ℕ) (s : Shard) :
    e.unlimit.withShard i s = (e.withShard i s).unlimit := rfl

/-- Releasing memory. -/
@[simp] theorem releaseMemory_unlimit (e : StorageEngine) (bytes : ℕ) :
    e.unlimit.releaseMemory bytes = (e.releaseMemory bytes).unlimit := by
  simp [releaseMemory, unlimit]

/-- Erasing an entry. -/
@[simp] theorem eraseEntryLocked_unlimit (e : StorageEngine) (i : ℕ) (k : Bytes) (x : Entry) :
    e.unlimit.eraseEntryLocked i k x = (e.eraseEntryLocked i k x).unlimit := by
  simp [eraseEntryLocked]

/-- Erasing an entry that has expired. -/
@[simp] theorem eraseExpired_unlimit (e : StorageEngine) (i : ℕ) (k : Bytes) (x : Entry) :
    e.unlimit.eraseExpired i k x = (e.eraseExpired i k x).unlimit := by
  simp only [eraseExpired, eraseEntryLocked_unlimit]
  rfl

/-- The look-up. -/
@[simp] theorem findLive_unlimit (e : StorageEngine) (k : Bytes) (now : TimePoint) :
    e.unlimit.findLive k now = (e.findLive k now).map id unlimit := by
  simp only [findLive, find_unlimit]
  split
  · rfl
  · split_ifs
    · exact congrArg (Prod.mk none) (eraseExpired_unlimit e _ _ _)
    · rfl

/-- Reserving memory changes the count only. -/
theorem reserveMemory_eq {bytes : ℕ} {e' : StorageEngine} (h : e.reserveMemory bytes = some e') :
    ∃ used, e' = { e with usedMemory := used } := by
  rw [reserveMemory] at h
  split_ifs at h <;> cases h <;> exact ⟨_, rfl⟩

/-- Storing an entry that is granted. -/
theorem storeEntry_unlimit {value : Bytes} {expiry : Option TimePoint}
    (hcode : (e.storeEntry key value expiry now).1 ≠ .noMemory) :
    e.unlimit.storeEntry key value expiry now = (e.storeEntry key value expiry now).map id unlimit := by
  have hreserve : (if entryMemory key value > e.unlimit.keyMemory key then
      e.unlimit.reserveMemory (entryMemory key value - e.unlimit.keyMemory key) else some e.unlimit)
      = some e.unlimit := by
    split_ifs
    · exact if_pos (.inr rfl)
    · rfl
  simp only [storeEntry, hreserve] at hcode ⊢
  split at hcode
  · exact absurd rfl hcode
  · next e' hgrant =>
    obtain ⟨used, rfl⟩ : ∃ used, e' = { e with usedMemory := used } := by
      split_ifs at hgrant
      · exact reserveMemory_eq hgrant
      · cases hgrant
        exact ⟨_, rfl⟩
    simp only [setup_unlimit, shards_unlimit, withShard_unlimit, releaseMemory_unlimit, Prod.map]
    rfl

/-! ## Operations -/

/-- `set`. -/
theorem set_unlimit {value : Bytes} {ttl : Option ℤ} {condition : SetCondition}
    (hcode : (e.set key value ttl condition now).1.code ≠ .noMemory) :
    e.unlimit.set key value ttl condition now = (e.set key value ttl condition now).map id unlimit := by
  simp only [set, eraseIfExpiredLocked_eq, findLive_unlimit, Prod.map_snd, setup_unlimit,
    StorageSetup.keyValid_unlimited, StorageSetup.valueValid_unlimited, find_unlimit] at hcode ⊢
  split_ifs at hcode ⊢
  · rfl
  · rfl
  · rfl
  · rw [storeEntry_unlimit hcode]
    rfl

/-- `incr_by`. -/
theorem incrBy_unlimit {delta : ℤ} (hcode : (e.incrBy key delta now).1.code ≠ .noMemory) :
    e.unlimit.incrBy key delta now = (e.incrBy key delta now).map id unlimit := by
  simp only [incrBy, findLive_unlimit, Prod.map_fst, Prod.map_snd, id_eq, setup_unlimit,
    StorageSetup.keyValid_unlimited, StorageSetup.valueValid_unlimited] at hcode ⊢
  by_cases hkey : (!e.setup.keyValid key) = true
  · rw [if_pos hkey, if_pos hkey]
    rfl
  rw [if_neg hkey] at hcode
  rw [if_neg hkey, if_neg hkey]
  cases hcurrent : currentInteger ((e.findLive key now).1.map Entry.value) with
  | none => rfl
  | some current =>
    simp only [hcurrent] at hcode ⊢
    split_ifs at hcode ⊢
    · rfl
    · rfl
    · rcases hstore : (e.findLive key now).2.storeEntry key (printInt (current + delta)) none now
        with ⟨code, e'⟩
      rw [hstore] at hcode
      have hgranted : code ≠ .noMemory := by
        rintro rfl
        exact hcode rfl
      rw [storeEntry_unlimit (by rw [hstore]; exact hgranted), hstore]
      cases code <;> rfl

/-- `append`. -/
theorem append_unlimit {suffix : Bytes} (hcode : (e.append key suffix now).1.code ≠ .noMemory) :
    e.unlimit.append key suffix now = (e.append key suffix now).map id unlimit := by
  simp only [append, findLive_unlimit, Prod.map_fst, Prod.map_snd, id_eq, setup_unlimit,
    StorageSetup.keyValid_unlimited, StorageSetup.valueValid_unlimited] at hcode ⊢
  split_ifs at hcode ⊢
  · rfl
  · rfl
  · rcases hstore : (e.findLive key now).2.storeEntry key
      (((e.findLive key now).1.map Entry.value).getD [] ++ suffix) none now with ⟨code, e'⟩
    rw [hstore] at hcode
    have hgranted : code ≠ .noMemory := by
      rintro rfl
      exact hcode rfl
    rw [storeEntry_unlimit (by rw [hstore]; exact hgranted), hstore]
    cases code <;> rfl

/-- `del`. -/
theorem del_unlimit (e : StorageEngine) (key : Bytes) (now : TimePoint) :
    e.unlimit.del key now = (e.del key now).map id unlimit := by
  rw [del, del, findLive_unlimit]
  rcases e.findLive key now with ⟨_ | entry, e'⟩
  · rfl
  · exact congrArg (Prod.mk 1) (eraseEntryLocked_unlimit e' _ _ _)

/-- `expire_at`. -/
theorem expireAt_unlimit (e : StorageEngine) (key : Bytes) (deadline now : TimePoint) :
    e.unlimit.expireAt key deadline now = (e.expireAt key deadline now).map id unlimit := by
  rw [expireAt, expireAt, findLive_unlimit]
  rcases e.findLive key now with ⟨_ | entry, e'⟩
  · rfl
  · simp only [Prod.map, id_eq]
    split_ifs
    · exact congrArg (Prod.mk true) (eraseExpired_unlimit e' _ _ _)
    · rfl

/-- `expire`. -/
theorem expire_unlimit (e : StorageEngine) (key : Bytes) (ttl : ℤ) (now : TimePoint) :
    e.unlimit.expire key ttl now = (e.expire key ttl now).map id unlimit := by
  rw [expire, expire]
  split_ifs
  · rw [del_unlimit]
    rfl
  · exact expireAt_unlimit e key _ now

/-- `persist`. -/
theorem persist_unlimit (e : StorageEngine) (key : Bytes) (now : TimePoint) :
    e.unlimit.persist key now = (e.persist key now).map id unlimit := by
  rw [persist, persist, findLive_unlimit]
  rcases e.findLive key now with ⟨_ | entry, e'⟩
  · rfl
  · simp only [Prod.map, id_eq]
    split_ifs <;> rfl

/-- `get`. -/
theorem get_unlimit (e : StorageEngine) (key : Bytes) (now : TimePoint) :
    e.unlimit.get key now = (e.get key now).map id unlimit := by
  rw [get, get, findLive_unlimit]
  rcases e.findLive key now with ⟨_ | entry, e'⟩ <;> rfl

/-- `ttl`. -/
theorem ttl_unlimit (e : StorageEngine) (key : Bytes) (now : TimePoint) :
    e.unlimit.ttl key now = (e.ttl key now).map id unlimit := by
  rw [ttl, ttl, findLive_unlimit]
  rcases e.findLive key now with ⟨_ | ⟨value, _ | deadline, version, lastAccess⟩, e'⟩ <;> rfl

/-- The walk over one shard. -/
theorem scanShard_unlimit (now : TimePoint) (acc : List (Σ _ : Bytes, Entry) × StorageEngine) (i : ℕ) :
    scanShard now (acc.map id unlimit) i = (scanShard now acc i).map id unlimit := by
  have hentry : ∀ acc p, scanEntry now i (acc.map id unlimit) p = (scanEntry now i acc p).map id unlimit := by
    intro acc p
    simp only [scanEntry, Prod.map, id_eq]
    split_ifs
    · exact congrArg (Prod.mk _) (eraseExpired_unlimit acc.2 _ _ _)
    · rfl
  exact List.foldl_hom (Prod.map id unlimit) fun acc p => hentry acc p

/-- The sampling loop. -/
theorem activeExpireLoop_unlimit (now : TimePoint) (i left pos sampled count : ℕ) (e : StorageEngine) :
    activeExpireLoop now i left pos sampled count e.unlimit
      = (activeExpireLoop now i left pos sampled count e).map id (Prod.map id unlimit) := by
  induction left generalizing pos sampled count e with
  | zero => rfl
  | succ left ih =>
    rw [activeExpireLoop_succ, activeExpireLoop_succ, shards_unlimit]
    rcases (e.shards i).map.entries[pos]? with _ | ⟨key, entry⟩
    · rfl
    · by_cases hexpired : entry.expired now = true
      · simp only [hexpired, if_true, eraseEntryLocked_unlimit, shards_unlimit]
        exact ih _ _ _ _
      · simp only [hexpired, Bool.false_eq_true, if_false]
        exact ih _ _ _ _

/-- A round of active expiration on one shard. -/
theorem activeExpireShard_unlimit (now : TimePoint) (samplePerShard : ℕ) (acc : ℕ × StorageEngine)
    (i : ℕ) : activeExpireShard now samplePerShard (acc.map id unlimit) i
      = (activeExpireShard now samplePerShard acc i).map id unlimit := by
  obtain ⟨count, e⟩ := acc
  simp only [activeExpireShard, Prod.map, id_eq, shards_unlimit, activeExpireLoop_unlimit]
  by_cases hsize : (e.shards i).map.entries.length = 0
  · simp only [hsize, if_true]
    rfl
  · simp only [hsize, if_false]
    rfl

end StorageEngine

end VeloxDb
