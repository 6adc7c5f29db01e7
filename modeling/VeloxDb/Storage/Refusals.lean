import VeloxDb.Recovery.Reachable

/-!
# Writes that are refused

`set`, `incr_by` and `append` drop an expired entry of their key before they look at anything else,
and reserve memory before they store anything. So a write that is refused, at whatever depth, leaves
the engine as it was or without that entry.
-/

namespace VeloxDb

open Decimal Util

namespace StorageEngine

variable {e e' : StorageEngine} {k key : Bytes} {now : TimePoint}

/-- The entry of `key` is gone and its memory released. Nothing else has changed but the count of
expired keys; the total is only kept where there is a limit. -/
structure Dropped (key : Bytes) (entry : Entry) (e e' : StorageEngine) : Prop where
  setup : e'.setup = e.setup
  others : ∀ i, i ≠ e.setup.shardForKey key → e'.shards i = e.shards i
  map : (e'.shards (e.setup.shardForKey key)).map = (e.shards (e.setup.shardForKey key)).map.erase key
  memoryBytes : (e'.shards (e.setup.shardForKey key)).memoryBytes + entryMemory key entry.value
    = (e.shards (e.setup.shardForKey key)).memoryBytes
  expireCursor : (e'.shards (e.setup.shardForKey key)).expireCursor
    = (e.shards (e.setup.shardForKey key)).expireCursor
  usedMemory : e'.usedMemory + (if e.maxMemoryBytes = 0 then 0 else entryMemory key entry.value)
    = e.usedMemory
  expiredKeys : e'.expiredKeys = e.expiredKeys + 1

/-- The engine as it was, or without the entry of `key`, which had expired. -/
def LeftAsWas (now : TimePoint) (key : Bytes) (e e' : StorageEngine) : Prop :=
  e' = e ∨ ∃ entry, e.find key = some entry ∧ entry.expired now = true ∧ Dropped key entry e e'

/-- The other keys are found as before. -/
theorem Dropped.find_of_ne {entry : Entry} (h : Dropped key entry e e') (hk : k ≠ key) :
    e'.find k = e.find k := by
  rw [find, find, h.setup]
  by_cases hshard : e.setup.shardForKey k = e.setup.shardForKey key
  · rw [hshard, h.map, AList.lookup_erase_ne hk]
  · rw [h.others _ hshard]

/-- Other keys are untouched. -/
theorem LeftAsWas.find_of_ne (h : LeftAsWas now key e e') (hk : k ≠ key) : e'.find k = e.find k := by
  rcases h with rfl | ⟨entry, -, -, hdropped⟩
  · rfl
  · exact hdropped.find_of_ne hk

/-- Erasing an expired entry drops it and nothing else. -/
theorem dropped_eraseExpired (h : e.WF) {entry : Entry} (hk : e.find key = some entry) :
    Dropped key entry e (e.eraseExpired (e.setup.shardForKey key) key entry) := by
  have hweight := h.toAccounted.weight_erase_shard hk
  have hmem := h.memory _ (e.setup.shardForKey_lt key)
  simp only [entryWeight] at hweight
  refine ⟨rfl, fun i hi => ?_, ?_, ?_, ?_, ?_, rfl⟩
  · simp [eraseExpired, eraseEntryLocked, withShard, releaseMemory, hi]
  · simp [eraseExpired, eraseEntryLocked, withShard, releaseMemory]
  · simp only [eraseExpired, eraseEntryLocked, withShard, releaseMemory, Function.update_self]
    omega
  · simp [eraseExpired, eraseEntryLocked, withShard, releaseMemory]
  · simp only [eraseExpired, eraseEntryLocked, withShard, releaseMemory]
    split_ifs with hmax
    · rw [h.unlimited hmax]
      omega
    · have hle := h.toAccounted.entryMemory_le_used hmax hk
      omega

/-- The lookup that the writes start with. -/
theorem leftAsWas_findLive (h : e.WF) (key : Bytes) (now : TimePoint) :
    LeftAsWas now key e (e.findLive key now).2 := by
  unfold findLive
  split
  · exact .inl rfl
  · next entry hk =>
    split_ifs with hexp
    · exact .inr ⟨entry, hk, hexp, dropped_eraseExpired h hk⟩
    · exact .inl rfl

/-- A reservation that is refused has reserved nothing. -/
theorem storeEntry_of_refused {value : Bytes} {expiry : Option TimePoint} {code : WriteCode}
    (hstore : e.storeEntry key value expiry now = (code, e')) (hcode : code ≠ .ok) : e' = e := by
  simp only [storeEntry] at hstore
  split at hstore
  · cases hstore
    rfl
  · cases hstore
    exact absurd rfl hcode

/-- A `set` that is refused has looked the key up, unless a size is wrong. -/
theorem set_refused_eq {value : Bytes} {ttl : Option ℤ} {condition : SetCondition}
    (hcode : (e.set key value ttl condition now).1.code ≠ .ok) :
    (e.set key value ttl condition now).2
      = if e.setup.keyValid key ∧ e.setup.valueValid value then (e.findLive key now).2 else e := by
  simp only [set, eraseIfExpiredLocked_eq] at hcode ⊢
  by_cases hk : e.setup.keyValid key = true
  swap
  · simp [hk]
  by_cases hv : e.setup.valueValid value = true
  swap
  · simp [hk, hv]
  simp only [hk, hv, Bool.not_true, Bool.false_eq_true, if_false, and_self, if_true] at hcode ⊢
  split_ifs at hcode ⊢
  · rfl
  · exact storeEntry_of_refused rfl hcode

/-- An `incr_by` that is refused has looked the key up, unless the key is too long. -/
theorem incrBy_refused_eq {delta : ℤ} (hcode : (e.incrBy key delta now).1.code ≠ .ok) :
    (e.incrBy key delta now).2 = if e.setup.keyValid key then (e.findLive key now).2 else e := by
  simp only [incrBy] at hcode ⊢
  by_cases hk : e.setup.keyValid key = true
  swap
  · simp [hk]
  simp only [hk, Bool.not_true, Bool.false_eq_true, if_false, if_true] at hcode ⊢
  cases hcurrent : currentInteger ((e.findLive key now).1.map Entry.value) with
  | none => rfl
  | some current =>
    simp only [hcurrent] at hcode ⊢
    split_ifs at hcode ⊢
    · rfl
    · rfl
    · split at hcode
      · exact absurd rfl hcode
      · next code e' hne hstore =>
        exact storeEntry_of_refused hstore hcode

/-- An `append` that is refused has looked the key up, unless the key is too long. -/
theorem append_refused_eq {suffix : Bytes} (hcode : (e.append key suffix now).1.code ≠ .ok) :
    (e.append key suffix now).2 = if e.setup.keyValid key then (e.findLive key now).2 else e := by
  simp only [append] at hcode ⊢
  by_cases hk : e.setup.keyValid key = true
  swap
  · simp [hk]
  simp only [hk, Bool.not_true, Bool.false_eq_true, if_false, if_true] at hcode ⊢
  split_ifs at hcode ⊢
  · rfl
  · split at hcode
    · exact absurd rfl hcode
    · next code e' hne hstore =>
      exact storeEntry_of_refused hstore hcode


/-- Whether or not the key has been looked up. -/
theorem leftAsWas_ite (h : e.WF) (key : Bytes) (now : TimePoint) (p : Prop) [Decidable p] :
    LeftAsWas now key e (if p then (e.findLive key now).2 else e) := by
  split_ifs
  · exact leftAsWas_findLive h key now
  · exact .inl rfl

/-- A `set` that is refused drops an expired entry of its key at most. -/
theorem set_leftAsWas (h : e.WF) {value : Bytes} {ttl : Option ℤ} {condition : SetCondition}
    (hcode : (e.set key value ttl condition now).1.code ≠ .ok) :
    LeftAsWas now key e (e.set key value ttl condition now).2 := by
  rw [set_refused_eq hcode]
  exact leftAsWas_ite h key now _

/-- An `incr_by` that is refused drops an expired entry of its key at most. -/
theorem incrBy_leftAsWas (h : e.WF) {delta : ℤ} (hcode : (e.incrBy key delta now).1.code ≠ .ok) :
    LeftAsWas now key e (e.incrBy key delta now).2 := by
  rw [incrBy_refused_eq hcode]
  exact leftAsWas_ite h key now _

/-- An `append` that is refused drops an expired entry of its key at most. -/
theorem append_leftAsWas (h : e.WF) {suffix : Bytes}
    (hcode : (e.append key suffix now).1.code ≠ .ok) :
    LeftAsWas now key e (e.append key suffix now).2 := by
  rw [append_refused_eq hcode]
  exact leftAsWas_ite h key now _

end StorageEngine

open StorageEngine in
/-- **A refused write leaves the store as it was**, with at most the entry of its own key removed
and released, and that only if it had expired. -/
theorem refused_write_leaves_store {setup : StorageSetup} {e : StorageEngine}
    (hreach : e.Reachable setup) (key : Bytes) (now : TimePoint) :
    (∀ value ttl condition, (e.set key value ttl condition now).1.code ≠ .ok →
      LeftAsWas now key e (e.set key value ttl condition now).2 ∧
        ∀ k, k ≠ key → (e.set key value ttl condition now).2.find k = e.find k) ∧
    (∀ delta, (e.incrBy key delta now).1.code ≠ .ok →
      LeftAsWas now key e (e.incrBy key delta now).2 ∧
        ∀ k, k ≠ key → (e.incrBy key delta now).2.find k = e.find k) ∧
    (∀ suffix, (e.append key suffix now).1.code ≠ .ok →
      LeftAsWas now key e (e.append key suffix now).2 ∧
        ∀ k, k ≠ key → (e.append key suffix now).2.find k = e.find k) := by
  have hwf := hreach.wf
  refine ⟨fun value ttl condition hcode => ?_, fun delta hcode => ?_, fun suffix hcode => ?_⟩
  · have hleft := set_leftAsWas hwf hcode
    exact ⟨hleft, fun k hk => hleft.find_of_ne hk⟩
  · have hleft := incrBy_leftAsWas hwf hcode
    exact ⟨hleft, fun k hk => hleft.find_of_ne hk⟩
  · have hleft := append_leftAsWas hwf hcode
    exact ⟨hleft, fun k hk => hleft.find_of_ne hk⟩

/-- An engine with room for 110 bytes that holds `k`, to expire after one millisecond. -/
def crampedEngine : StorageEngine :=
  (({ setup := ⟨{ maxMemoryBytes := 110 }, {}, fun _ => 0⟩ } : StorageEngine).apply 0
    (.set (ascii "k") (ascii "v") (some 1) .always)).2

/-- The entry has expired when an `append` is refused for lack of memory; it is the only thing gone.
-/
theorem refused_append_drops_expired :
    let suffix := List.replicate 14 (97 : UInt8)
    (crampedEngine.append (ascii "k") suffix 1000000).1.code = .noMemory ∧
      StorageEngine.LeftAsWas 1000000 (ascii "k") crampedEngine
        (crampedEngine.append (ascii "k") suffix 1000000).2 ∧
      (crampedEngine.append (ascii "k") suffix 1000000).2.usedMemory = 0 := by
  intro suffix
  have hcode : (crampedEngine.append (ascii "k") suffix 1000000).1.code = .noMemory := by
    decide +kernel
  have hreach : crampedEngine.Reachable ⟨{ maxMemoryBytes := 110 }, {}, fun _ => 0⟩ :=
    .op 0 (.set (ascii "k") (ascii "v") (some 1) .always) trivial .new
  refine ⟨hcode, ?_, by decide +kernel⟩
  refine ((refused_write_leaves_store hreach (ascii "k") 1000000).2.2 suffix ?_).1
  rw [hcode]
  decide

end VeloxDb
