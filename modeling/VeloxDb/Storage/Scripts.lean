import VeloxDb.Common.Reservation
import VeloxDb.Storage.Refinement

/-!
# `storage/storage_engine.cpp` at the grain of its atomic accesses

`Storage/Engine` lets every operation happen at once. Here each one is a program that takes the mutex
of a shard, works on the shard, and moves `used_memory_` by a compare-and-exchange loop, in the order
of the source: an entry that grows is reserved before it is stored, one that shrinks is released
after it is stored, one that is erased is released before it is erased, and `flushdb` releases when
it has given back the last mutex.

A program that runs alone does what the operation of the engine does (`Refines.call`).
-/

namespace VeloxDb

open Decimal Util Keyed Reservation

/-- A program on the shards. -/
abbrev Script (α : Type) := Prog ℕ Shard α

namespace Script

/-! ## The parts -/

/-- Look at a shard. -/
def look (i : ℕ) : Script Shard := .access i id .done

/-- A write to a shard. -/
def modify (i : ℕ) (f : Shard → Shard) : Script Unit := .access i f fun _ => .done ()

/-- `reserve_memory`, one atomic step. -/
def reserveMemory (bytes : ℕ) : Script Bool := .reserve bytes .done

/-- `release_memory`, one atomic step. -/
def releaseMemory (bytes : ℕ) : Script Unit := .release bytes (.done ())

/-- `expired_keys_.fetch_add(n)`. -/
def countExpired (n : ℕ) : Script Unit := .count n (.done ())

/-- The scope of a `std::unique_lock`. -/
def withLock {α : Type} (i : ℕ) (body : Script α) : Script α :=
  .lock i (body >>= fun result => .unlock i (.done result))

/-- `erase_entry_locked`: the memory is released behind the removal, in a step of its own. -/
def eraseEntryLocked (i : ℕ) (key : Bytes) (entry : Entry) : Script Unit := do
  let memory := entryMemory key entry.value
  releaseMemory memory
  modify i fun s => { s with map := s.map.erase key, memoryBytes := s.memoryBytes - memory }

/-- The removal of an expired entry that an access has found. -/
def eraseExpired (i : ℕ) (key : Bytes) (entry : Entry) : Script Unit := do
  eraseEntryLocked i key entry
  countExpired 1

/-- The lookup that most operations start with. -/
def findLive (i : ℕ) (key : Bytes) (now : TimePoint) : Script (Option Entry) := do
  match (← look i).map.lookup key with
  | none => return none
  | some entry =>
    if entry.expired now then
      eraseExpired i key entry
      return none
    else return some entry

/-- The entry is replaced, and the access counted. -/
def updateEntry (i : ℕ) (key : Bytes) (entry : Entry) : Script Unit :=
  modify i fun s => { s with map := s.map.insert key entry }

/-- What `set`, `incr_by` and `append` share once the new value is known. -/
def storeEntry (i : ℕ) (key value : Bytes) (expiry : Option TimePoint) (now : TimePoint) :
    Script WriteCode := do
  let found := (← look i).map.lookup key
  let oldMemory := (found.map fun x => entryMemory key x.value).getD 0
  let newMemory := entryMemory key value
  let version := (found.map fun x => x.version + 1).getD 1
  let granted ← if newMemory > oldMemory then reserveMemory (newMemory - oldMemory) else pure true
  if granted then
    modify i fun s =>
      { s with
        map := s.map.insert key { value, expiry, version, lastAccess := now }
        memoryBytes := s.memoryBytes - oldMemory + newMemory }
    releaseMemory (oldMemory - newMemory)
    return .ok
  else return .noMemory

/-! ## Operations on one key -/

variable (setup : StorageSetup)

/-- `set`, under the lock of the shard. -/
def set (key value : Bytes) (ttl : Option ℤ) (condition : SetCondition) (now : TimePoint) :
    Script WriteResult :=
  if !setup.keyValid key then return { code := .keyTooLarge }
  else if !setup.valueValid value then return { code := .valueTooLarge }
  else
    let i := setup.shardForKey key
    withLock i do
      let _ ← findLive i key now
      let exist := ((← look i).map.lookup key).isSome
      if (condition = .nx ∧ exist) ∨ (condition = .xx ∧ ¬ exist) then return { code := .notSet }
      else
        let code ← storeEntry i key value (ttl.map (addMillis now)) now
        return { code }

/-- `incr_by`, under the lock of the shard. -/
def incrBy (key : Bytes) (delta : ℤ) (now : TimePoint) : Script WriteResult :=
  if !setup.keyValid key then return { code := .keyTooLarge }
  else
    let i := setup.shardForKey key
    withLock i do
      let it ← findLive i key now
      match currentInteger (it.map Entry.value) with
      | none => return { code := .invalidInteger }
      | some current =>
        if overflows current delta then return { code := .overflow }
        else
          let next := current + delta
          let nextValue := printInt next
          if !setup.valueValid nextValue then return { code := .valueTooLarge }
          else
            match ← storeEntry i key nextValue none now with
            | .ok => return { code := .ok, integer := next }
            | code => return { code }

/-- `append`, under the lock of the shard. -/
def append (key suffix : Bytes) (now : TimePoint) : Script WriteResult :=
  if !setup.keyValid key then return { code := .keyTooLarge }
  else
    let i := setup.shardForKey key
    withLock i do
      let it ← findLive i key now
      let nextValue := (it.map Entry.value).getD [] ++ suffix
      if !setup.valueValid nextValue then return { code := .valueTooLarge }
      else
        match ← storeEntry i key nextValue none now with
        | .ok => return { code := .ok, integer := nextValue.length }
        | code => return { code }

/-- `del` of one key, under the lock of its shard. -/
def del (key : Bytes) (now : TimePoint) : Script ℕ :=
  let i := setup.shardForKey key
  withLock i do
    match ← findLive i key now with
    | none => return 0
    | some entry =>
      eraseEntryLocked i key entry
      return 1

/-- `expire_at`, under the lock of the shard. -/
def expireAt (key : Bytes) (expireAtTp now : TimePoint) : Script Bool :=
  let i := setup.shardForKey key
  withLock i do
    match ← findLive i key now with
    | none => return false
    | some entry =>
      if expireAtTp ≤ now then eraseExpired i key entry
      else
        updateEntry i key { entry with expiry := some expireAtTp, version := entry.version + 1 }
      return true

/-- `expire` computes the deadline and calls `expire_at`. -/
def expire (key : Bytes) (ttl : ℤ) (now : TimePoint) : Script Bool :=
  if ttl ≤ 0 then do return (← del setup key now) == 1
  else expireAt setup key (addMillis now ttl) now

/-- `persist`, under the lock of the shard. -/
def persist (key : Bytes) (now : TimePoint) : Script Bool :=
  let i := setup.shardForKey key
  withLock i do
    match ← findLive i key now with
    | none => return false
    | some entry =>
      if entry.expiry = none then return false
      else
        updateEntry i key { entry with expiry := none, version := entry.version + 1 }
        return true

/-- `get`, under the lock of the shard. -/
def get (key : Bytes) (now : TimePoint) : Script (Option Bytes) :=
  let i := setup.shardForKey key
  withLock i do
    match ← findLive i key now with
    | none => return none
    | some entry =>
      updateEntry i key { entry with lastAccess := now }
      return some entry.value

/-- `ttl`, under the lock of the shard. -/
def ttl (key : Bytes) (now : TimePoint) : Script TtlResult :=
  let i := setup.shardForKey key
  withLock i do
    match ← findLive i key now with
    | none => return .missing
    | some entry =>
      match entry.expiry with
      | none => return .noExpiry
      | some deadline => return .hasExpiry (max 0 (millisBetween deadline now))

/-! ## Operations on several keys or all shards -/

/-- A loop over a list, with a mutex for each round. -/
def loop {α β : Type} (f : β → α → Script β) : List α → β → Script β
  | [], b => return b
  | a :: l, b => do loop f l (← f b a)

/-- `del` takes one lock after the other. -/
def delAll (keys : List Bytes) (now : TimePoint) : Script ℕ :=
  loop (fun deleted key => do return deleted + (← del setup key now)) keys 0

/-- `mget` takes one lock after the other. -/
def mget (keys : List Bytes) (now : TimePoint) : Script (List (Option Bytes)) :=
  loop (fun values key => do return values ++ [← get setup key now]) keys []

/-- `exists_count` takes one lock after the other. -/
def existsCount (keys : List Bytes) (now : TimePoint) : Script ℕ :=
  loop (fun count key => do return if (← get setup key now).isSome then count + 1 else count) keys 0

/-- `strlen` is a `get`. -/
def strlen (key : Bytes) (now : TimePoint) : Script ℕ := do
  return ((← get setup key now).map List.length).getD 0

/-- One entry in the scan of a shard. -/
def scanEntry (now : TimePoint) (i : ℕ) (kept : List (Σ _ : Bytes, Entry)) (p : Σ _ : Bytes, Entry) :
    Script (List (Σ _ : Bytes, Entry)) :=
  if p.2.expired now then do
    eraseExpired i p.1 p.2
    return kept
  else return kept ++ [p]

/-- The unexpired entries of one shard, under its lock. -/
def scanShard (now : TimePoint) (kept : List (Σ _ : Bytes, Entry)) (i : ℕ) :
    Script (List (Σ _ : Bytes, Entry)) :=
  withLock i do loop (scanEntry now i) (← look i).map.entries kept

/-- The unexpired entries, one shard after the other. -/
def scan (now : TimePoint) : Script (List (Σ _ : Bytes, Entry)) :=
  loop (scanShard now) (List.range setup.shardCount) []

/-- `dbsize` counts what the walk over the shards finds. -/
def dbsize (now : TimePoint) : Script ℕ := do
  return (← scan setup now).length

/-- `expires_count` counts the entries with a deadline that the walk finds. -/
def expiresCount (now : TimePoint) : Script ℕ := do
  return (← scan setup now).countP fun p => p.2.expiry.isSome

/-- `snapshot` copies what the walk over the shards finds. -/
def snapshot (now : TimePoint) : Script (List SnapshotEntry) := do
  return (← scan setup now).map fun p => ⟨p.1, p.2.value, p.2.expiry.map unixMs⟩

/-- One shard is emptied, under its lock; its memory is added up. -/
def flushShard (released : ℕ) (i : ℕ) : Script ℕ :=
  withLock i do
    let s ← look i
    modify i fun s => { s with memoryBytes := 0, map := ∅ }
    return released + s.memoryBytes

/-- `flushdb` empties the shards and releases their memory behind the last one. -/
def flushdb : Script Unit := do
  let released ← loop flushShard (List.range setup.shardCount) 0
  releaseMemory released

/-- The sampling loop of `active_expire`. -/
def activeExpireLoop (now : TimePoint) (i : ℕ) : ℕ → ℕ → ℕ → ℕ → Script (ℕ × ℕ)
  | 0, _, sampled, count => return (sampled, count)
  | left + 1, pos, sampled, count => do
    match (← look i).map.entries[pos]? with
    | none => return (sampled, count)
    | some ⟨key, entry⟩ =>
      if entry.expired now then
        eraseEntryLocked i key entry
        let size := (← look i).map.entries.length
        activeExpireLoop now i left (if pos = size then 0 else pos) (sampled + 1) (count + 1)
      else
        let size := (← look i).map.entries.length
        activeExpireLoop now i left (if pos + 1 = size then 0 else pos + 1) (sampled + 1) count

/-- `active_expire` in one shard, under its lock. -/
def activeExpireShard (now : TimePoint) (samplePerShard : ℕ) (count : ℕ) (i : ℕ) : Script ℕ :=
  withLock i do
    let s ← look i
    let size := s.map.entries.length
    if size = 0 then
      modify i fun s => { s with expireCursor := 0 }
      return count
    else
      let cursor := s.expireCursor % size
      let (sampled, count) ← activeExpireLoop now i (min samplePerShard size) cursor 0 count
      modify i fun s =>
        { s with
          expireCursor :=
            if s.map.entries.length = 0 then 0 else (cursor + sampled) % s.map.entries.length }
      return count

/-- `active_expire`, one shard after the other. -/
def activeExpire (samplePerShard : ℕ) (now : TimePoint) : Script ℕ := do
  let count ← loop (activeExpireShard now samplePerShard) (List.range setup.shardCount) 0
  countExpired count
  return count

end Script

/-! ## Calls -/

/-- The call at once. -/
def StorageEngine.call (e : StorageEngine) (now : TimePoint) : Call → Reply × StorageEngine
  | .op op => e.apply now op
  | .activeExpire samplePerShard => (e.activeExpire samplePerShard now).map .count id

/-- The call as a program. -/
def Call.script (setup : StorageSetup) (now : TimePoint) : Call → Script Reply
  | .op (.set key value ttl condition) => do return .write (← Script.set setup key value ttl condition now)
  | .op (.get key) => do return .value (← Script.get setup key now)
  | .op (.del keys) => do return .count (← Script.delAll setup keys now)
  | .op (.exist keys) => do return .count (← Script.existsCount setup keys now)
  | .op (.mget keys) => do return .values (← Script.mget setup keys now)
  | .op (.incrBy key delta) => do return .write (← Script.incrBy setup key delta now)
  | .op (.append key suffix) => do return .write (← Script.append setup key suffix now)
  | .op (.strlen key) => do return .count (← Script.strlen setup key now)
  | .op (.expire key ttl) => do return .changed (← Script.expire setup key ttl now)
  | .op (.expireAt key expireAtTp) => do return .changed (← Script.expireAt setup key expireAtTp now)
  | .op (.ttl key) => do return .ttl (← Script.ttl setup key now)
  | .op (.persist key) => do return .changed (← Script.persist setup key now)
  | .op .dbsize => do return .count (← Script.dbsize setup now)
  | .op .expiresCount => do return .count (← Script.expiresCount setup now)
  | .op .flushdb => do
    Script.flushdb setup
    return .done
  | .op .snapshot => do return .entries { x | x ∈ (← Script.snapshot setup now) }
  | .activeExpire samplePerShard => do return .count (← Script.activeExpire setup samplePerShard now)

/-! ## A program that runs alone -/

/-- The engine as a store. -/
def StorageEngine.toStore (e : StorageEngine) : Store ℕ Shard := ⟨e.usedMemory, e.expiredKeys, e.shards⟩

namespace Script

variable {α β : Type} {e : StorageEngine} {p : Script α} {r : α × StorageEngine}

/-- Alone, the program does what the operation with the result `r` does. -/
structure Refines (p : Script α) (e : StorageEngine) (r : α × StorageEngine) : Prop where
  solo : p.solo e.maxMemoryBytes e.toStore = (r.1, r.2.toStore)
  setup : r.2.setup = e.setup

/-- A reservation changes nothing but the counter. -/
theorem reserveMemory_eq {bytes : ℕ} {e' : StorageEngine} (h : e.reserveMemory bytes = some e') :
    e' = { e with usedMemory := e'.usedMemory } := by
  rw [StorageEngine.reserveMemory] at h
  split_ifs at h <;> cases h <;> rfl

namespace Refines

/-- A result without a step. -/
theorem done (a : α) (e : StorageEngine) : Refines (pure a) e (a, e) := ⟨rfl, rfl⟩

/-- One part after the other. -/
theorem bind {f : α → Script β} {r' : β × StorageEngine} (h : Refines p e r)
    (hf : Refines (f r.1) r.2 r') : Refines (p >>= f) e r' := by
  refine ⟨?_, hf.setup.trans h.setup⟩
  have hlimit : r.2.maxMemoryBytes = e.maxMemoryBytes := by
    rw [StorageEngine.maxMemoryBytes, h.setup]
    rfl
  rw [Prog.solo_bind, h.solo, ← hlimit]
  exact hf.solo

/-- A function of the result. -/
theorem map {f : α → β} (h : Refines p e r) : Refines (p >>= fun a => pure (f a)) e (f r.1, r.2) :=
  h.bind (.done _ _)

/-- A look at a shard sees the engine's. -/
theorem look (i : ℕ) (e : StorageEngine) : Refines (look i) e (e.shards i, e) := by
  refine ⟨?_, rfl⟩
  show (e.shards i, Store.mk _ _ (Function.update e.shards i (id (e.shards i)))) = _
  rw [id, Function.update_eq_self]
  rfl

/-- A write to a shard is one to the engine's. -/
theorem modify (i : ℕ) (f : Shard → Shard) (e : StorageEngine) :
    Refines (modify i f) e ((), e.withShard i (f (e.shards i))) := ⟨rfl, rfl⟩

/-- Releasing memory by the script is that of the engine. -/
theorem releaseMemory (bytes : ℕ) (e : StorageEngine) :
    Refines (releaseMemory bytes) e ((), e.releaseMemory bytes) := ⟨rfl, rfl⟩

/-- Counting expired keys by the script is that of the engine. -/
theorem countExpired (n : ℕ) (e : StorageEngine) :
    Refines (countExpired n) e ((), { e with expiredKeys := e.expiredKeys + n }) := ⟨rfl, rfl⟩

/-- A reservation is granted when the engine grants it. -/
theorem reserveMemory (bytes : ℕ) (e : StorageEngine) :
    Refines (reserveMemory bytes) e
      ((e.reserveMemory bytes).isSome, (e.reserveMemory bytes).getD e) := by
  have hanswer : reserved e.maxMemoryBytes e.usedMemory bytes
      = (e.reserveMemory bytes).map StorageEngine.usedMemory := by
    rw [reserved, StorageEngine.reserveMemory]
    split_ifs <;> rfl
  cases hr : e.reserveMemory bytes with
  | none =>
    refine ⟨?_, rfl⟩
    rw [hr] at hanswer
    simp only [Script.reserveMemory, Prog.solo, StorageEngine.toStore, hanswer, Option.map_none]
    rfl
  | some e' =>
    rw [hr] at hanswer
    have he' := reserveMemory_eq hr
    refine ⟨?_, ?_⟩
    · simp only [Script.reserveMemory, Prog.solo, StorageEngine.toStore, hanswer, Option.map_some]
      rw [he']
      rfl
    · rw [he']
      rfl

/-- A mutex is of no account. -/
theorem withLock {i : ℕ} (h : Refines p e r) : Refines (withLock i p) e r := by
  refine ⟨?_, h.setup⟩
  show (p >>= fun result => .unlock i (.done result)).solo _ _ = _
  rw [Prog.solo_bind, h.solo]
  rfl

/-- Run alone, `erase_entry_locked` is the engine's. -/
theorem eraseEntryLocked (i : ℕ) (key : Bytes) (entry : Entry) (e : StorageEngine) :
    Refines (eraseEntryLocked i key entry) e ((), e.eraseEntryLocked i key entry) :=
  (releaseMemory _ e).bind (modify i _ _)

/-- Run alone, the removal of an expired entry is the engine's. -/
theorem eraseExpired (i : ℕ) (key : Bytes) (entry : Entry) (e : StorageEngine) :
    Refines (eraseExpired i key entry) e ((), e.eraseExpired i key entry) :=
  (eraseEntryLocked i key entry e).bind (countExpired 1 _)

/-- Run alone, the look-up is the engine's. -/
theorem findLive (key : Bytes) (now : TimePoint) (e : StorageEngine) :
    Refines (findLive (e.setup.shardForKey key) key now) e (e.findLive key now) := by
  refine (look _ e).bind ?_
  rw [StorageEngine.findLive, StorageEngine.find]
  simp only
  cases (e.shards (e.setup.shardForKey key)).map.lookup key with
  | none => exact .done _ _
  | some entry =>
    simp only
    split_ifs
    · exact (eraseExpired _ key entry e).bind (.done _ _)
    · exact .done _ _

/-- Run alone, the end of a write is the engine's. -/
theorem storeEntry (key value : Bytes) (expiry : Option TimePoint) (now : TimePoint)
    (e : StorageEngine) :
    Refines (storeEntry (e.setup.shardForKey key) key value expiry now) e
      (e.storeEntry key value expiry now) := by
  -- what is done behind a reservation that left `e'`
  have hstore : ∀ e' : StorageEngine, e'.setup = e.setup → e'.shards = e.shards → ∀ found,
      Refines (do
        Script.modify (e.setup.shardForKey key) fun s =>
          { s with
            map := s.map.insert key ⟨value, expiry, found, now⟩
            memoryBytes := s.memoryBytes - e.keyMemory key + entryMemory key value }
        Script.releaseMemory (e.keyMemory key - entryMemory key value)
        return WriteCode.ok) e'
        (.ok, (e'.withShard (e'.setup.shardForKey key)
          { e'.shards (e'.setup.shardForKey key) with
            map := (e'.shards (e'.setup.shardForKey key)).map.insert key ⟨value, expiry, found, now⟩
            memoryBytes := (e'.shards (e'.setup.shardForKey key)).memoryBytes - e.keyMemory key +
              entryMemory key value }).releaseMemory (e.keyMemory key - entryMemory key value)) := by
    intro e' hsetup hshards found
    rw [← hsetup]
    exact (modify _ _ e').bind ((releaseMemory _ _).bind (.done _ _))
  rw [StorageEngine.storeEntry]
  refine (look _ e).bind ?_
  show Refines (do
    let granted ← if entryMemory key value > e.keyMemory key then
      Script.reserveMemory (entryMemory key value - e.keyMemory key) else pure true
    if granted then _ else _) e _
  by_cases hgrow : entryMemory key value > e.keyMemory key
  · simp only [if_pos hgrow]
    refine (reserveMemory _ e).bind ?_
    cases hr : e.reserveMemory (entryMemory key value - e.keyMemory key) with
    | none => exact .done _ _
    | some e' =>
      have he' := reserveMemory_eq hr
      refine hstore e' ?_ ?_ _
      · rw [he']
      · rw [he']
  · simp only [if_neg hgrow]
    exact hstore e rfl rfl _

/-! ### Operations -/

/-- The look-up leaves the setup alone. -/
theorem setup_findLive (key : Bytes) (now : TimePoint) (e : StorageEngine) :
    (e.findLive key now).2.setup = e.setup := (findLive key now e).setup

/-- An operation that goes on with what the lookup has found. -/
theorem afterFindLive {key : Bytes} {now : TimePoint} {f : Option Entry → Script β}
    {r : β × StorageEngine} (hf : ∀ it e', e.findLive key now = (it, e') → e'.setup = e.setup →
      Refines (f it) e' r) :
    Refines (Script.withLock (e.setup.shardForKey key)
      (Script.findLive (e.setup.shardForKey key) key now >>= f)) e r :=
  .withLock ((findLive key now e).bind (hf _ _ rfl (setup_findLive key now e)))

/-- Run alone, `set` is the engine's. -/
theorem set (key value : Bytes) (ttl : Option ℤ) (condition : SetCondition) (now : TimePoint)
    (e : StorageEngine) :
    Refines (Script.set e.setup key value ttl condition now) e (e.set key value ttl condition now) := by
  rw [Script.set, StorageEngine.set]
  split_ifs
  · exact .done _ _
  · exact .done _ _
  · refine afterFindLive fun it e' hfound hsetup => ?_
    rw [StorageEngine.eraseIfExpiredLocked_eq, hfound, ← hsetup]
    refine (look _ e').bind ?_
    show Refines (if (condition = .nx ∧ (e'.find key).isSome) ∨
      (condition = .xx ∧ ¬ (e'.find key).isSome) then _ else _) e' _
    simp only
    split_ifs
    · exact .done _ _
    · exact (storeEntry key value _ now e').bind (.done _ _)

/-- Run alone, `incr_by` is the engine's. -/
theorem incrBy (key : Bytes) (delta : ℤ) (now : TimePoint) (e : StorageEngine) :
    Refines (Script.incrBy e.setup key delta now) e (e.incrBy key delta now) := by
  rw [Script.incrBy, StorageEngine.incrBy]
  split_ifs
  · exact .done _ _
  · refine afterFindLive fun it e' hfound hsetup => ?_
    rw [hfound]
    simp only
    cases currentInteger (it.map Entry.value) with
    | none => exact .done _ _
    | some current =>
      simp only [← hsetup]
      split_ifs
      · exact .done _ _
      · exact .done _ _
      · refine (storeEntry key _ none now e').bind ?_
        generalize e'.storeEntry key (printInt (current + delta)) none now = r
        obtain ⟨code, e''⟩ := r
        cases code <;> exact .done _ _

/-- Run alone, `append` is the engine's. -/
theorem append (key suffix : Bytes) (now : TimePoint) (e : StorageEngine) :
    Refines (Script.append e.setup key suffix now) e (e.append key suffix now) := by
  rw [Script.append, StorageEngine.append]
  split_ifs
  · exact .done _ _
  · refine afterFindLive fun it e' hfound hsetup => ?_
    rw [hfound]
    simp only [← hsetup]
    split_ifs
    · exact .done _ _
    · refine (storeEntry key _ none now e').bind ?_
      generalize e'.storeEntry key ((it.map Entry.value).getD [] ++ suffix) none now = r
      obtain ⟨code, e''⟩ := r
      cases code <;> exact .done _ _

/-- Run alone, `del` of one key is the engine's. -/
theorem del (key : Bytes) (now : TimePoint) (e : StorageEngine) :
    Refines (Script.del e.setup key now) e (e.del key now) := by
  refine afterFindLive fun it e' hfound hsetup => ?_
  rw [StorageEngine.del, hfound, ← hsetup]
  cases it with
  | none => exact .done _ _
  | some entry => exact (eraseEntryLocked _ key entry e').bind (.done _ _)

/-- Run alone, `expire_at` is the engine's. -/
theorem expireAt (key : Bytes) (expireAtTp now : TimePoint) (e : StorageEngine) :
    Refines (Script.expireAt e.setup key expireAtTp now) e (e.expireAt key expireAtTp now) := by
  refine afterFindLive fun it e' hfound hsetup => ?_
  rw [StorageEngine.expireAt, hfound, ← hsetup]
  cases it with
  | none => exact .done _ _
  | some entry =>
    simp only
    split_ifs
    · exact (eraseExpired _ key entry e').bind (.done _ _)
    · exact (modify _ _ e').bind (.done _ _)

/-- Run alone, `expire` is the engine's. -/
theorem expire (key : Bytes) (ttl : ℤ) (now : TimePoint) (e : StorageEngine) :
    Refines (Script.expire e.setup key ttl now) e (e.expire key ttl now) := by
  rw [Script.expire, StorageEngine.expire]
  split_ifs
  · exact (del key now e).map
  · exact expireAt key _ now e

/-- Run alone, `persist` is the engine's. -/
theorem persist (key : Bytes) (now : TimePoint) (e : StorageEngine) :
    Refines (Script.persist e.setup key now) e (e.persist key now) := by
  refine afterFindLive fun it e' hfound hsetup => ?_
  rw [StorageEngine.persist, hfound, ← hsetup]
  cases it with
  | none => exact .done _ _
  | some entry =>
    simp only
    split_ifs
    · exact .done _ _
    · exact (modify _ _ e').bind (.done _ _)

/-- Run alone, `get` is the engine's. -/
theorem get (key : Bytes) (now : TimePoint) (e : StorageEngine) :
    Refines (Script.get e.setup key now) e (e.get key now) := by
  refine afterFindLive fun it e' hfound hsetup => ?_
  rw [StorageEngine.get, hfound, ← hsetup]
  cases it with
  | none => exact .done _ _
  | some entry => exact (modify _ _ e').bind (.done _ _)

/-- Run alone, `ttl` is the engine's. -/
theorem ttl (key : Bytes) (now : TimePoint) (e : StorageEngine) :
    Refines (Script.ttl e.setup key now) e (e.ttl key now) := by
  refine afterFindLive fun it e' hfound _ => ?_
  rw [StorageEngine.ttl, hfound]
  cases it with
  | none => exact .done _ _
  | some entry =>
    simp only
    cases entry.expiry <;> exact .done _ _

/-- A loop does what the fold does, if one round does. -/
theorem loop {f : β → α → Script β} {g : β × StorageEngine → α → β × StorageEngine} {l : List α}
    (hf : ∀ b e', e'.setup = e.setup → ∀ a ∈ l, Refines (f b a) e' (g (b, e') a)) (b : β)
    (e' : StorageEngine) (he' : e'.setup = e.setup) :
    Refines (Script.loop f l b) e' (l.foldl g (b, e')) := by
  induction l generalizing b e' with
  | nil => exact .done _ _
  | cons a l ih =>
    have hround := hf b e' he' a List.mem_cons_self
    refine hround.bind (ih ?_ _ _ (hround.setup.trans he'))
    exact fun b e' he' a ha => hf b e' he' a (List.mem_cons_of_mem _ ha)

/-- Run alone, `del` is the engine's. -/
theorem delAll (keys : List Bytes) (now : TimePoint) (e : StorageEngine) :
    Refines (Script.delAll e.setup keys now) e (e.delAll keys now) :=
  loop (fun b e' he' key _ => by rw [← he']; exact (del key now e').map) 0 e rfl

/-- Run alone, `mget` is the engine's. -/
theorem mget (keys : List Bytes) (now : TimePoint) (e : StorageEngine) :
    Refines (Script.mget e.setup keys now) e (e.mget keys now) :=
  loop (fun b e' he' key _ => by rw [← he']; exact (get key now e').map) [] e rfl

/-- Run alone, `exists_count` is the engine's. -/
theorem existsCount (keys : List Bytes) (now : TimePoint) (e : StorageEngine) :
    Refines (Script.existsCount e.setup keys now) e (e.existsCount keys now) :=
  loop (fun b e' he' key _ => by rw [← he']; exact (get key now e').map) 0 e rfl

/-- Run alone, the walk over the shards is the engine's. -/
theorem scan (now : TimePoint) (e : StorageEngine) :
    Refines (Script.scan e.setup now) e (e.scan now) := by
  refine loop (fun kept e' _ i _ => .withLock ((look i e').bind ?_)) [] e rfl
  refine loop (fun kept e'' _ p _ => ?_) kept e' rfl
  rw [Script.scanEntry, StorageEngine.scanEntry]
  split_ifs
  · exact (eraseExpired i p.1 p.2 e'').bind (.done _ _)
  · exact .done _ _

/-- Run alone, `flushdb` is the engine's. -/
theorem flushdb (e : StorageEngine) : Refines (Script.flushdb e.setup) e ((), e.flushdb) := by
  rw [Script.flushdb, StorageEngine.flushdb]
  refine (loop (fun released e' _ i _ => .withLock ?_) 0 e rfl).bind (releaseMemory _ _)
  exact (look i e').bind ((modify i _ e').bind (.done _ _))

/-- Run alone, the sampling loop is the engine's. -/
theorem activeExpireLoop (now : TimePoint) (i left : ℕ) (pos sampled count : ℕ) (e : StorageEngine) :
    Refines (Script.activeExpireLoop now i left pos sampled count) e
      (((StorageEngine.activeExpireLoop now i left pos sampled count e).1,
        (StorageEngine.activeExpireLoop now i left pos sampled count e).2.1),
        (StorageEngine.activeExpireLoop now i left pos sampled count e).2.2) := by
  induction left generalizing pos sampled count e with
  | zero => exact .done _ _
  | succ left ih =>
    rw [StorageEngine.activeExpireLoop_succ]
    refine (look i e).bind ?_
    simp only
    cases (e.shards i).map.entries[pos]? with
    | none => exact .done _ _
    | some found =>
      obtain ⟨key, entry⟩ := found
      by_cases hexpired : entry.expired now = true
      · simp only [hexpired, if_true]
        exact (eraseEntryLocked i key entry e).bind ((look i _).bind (ih _ _ _ _))
      · simp only [hexpired, Bool.false_eq_true, if_false]
        exact (look i e).bind (ih _ _ _ _)

/-- Run alone, `active_expire` is the engine's. -/
theorem activeExpire (samplePerShard : ℕ) (now : TimePoint) (e : StorageEngine) :
    Refines (Script.activeExpire e.setup samplePerShard now) e (e.activeExpire samplePerShard now) := by
  refine (loop (g := StorageEngine.activeExpireShard now samplePerShard)
    (fun count e' _ i _ => .withLock ((look i e').bind ?_)) 0 e rfl).bind
    ((countExpired _ _).bind (.done _ _))
  rw [StorageEngine.activeExpireShard]
  by_cases hempty : (e'.shards i).map.entries.length = 0
  · simp only [if_pos hempty]
    exact (modify i _ e').bind (.done _ _)
  · simp only [if_neg hempty]
    exact (activeExpireLoop now i _ _ _ _ e').bind ((modify i _ _).bind (.done _ _))

/-- **A program that runs alone does what the engine does.** -/
theorem call (now : TimePoint) (c : Call) (e : StorageEngine) :
    Refines (c.script e.setup now) e (e.call now c) := by
  cases c with
  | op op =>
    cases op with
    | set key value ttl condition => exact (set key value ttl condition now e).map
    | get key => exact (get key now e).map
    | del keys => exact (delAll keys now e).map
    | exist keys => exact (existsCount keys now e).map
    | mget keys => exact (mget keys now e).map
    | incrBy key delta => exact (incrBy key delta now e).map
    | append key suffix => exact (append key suffix now e).map
    | strlen key => exact ((get key now e).map).map
    | expire key ttl => exact (expire key ttl now e).map
    | expireAt key expireAtTp => exact (expireAt key expireAtTp now e).map
    | ttl key => exact (ttl key now e).map
    | persist key => exact (persist key now e).map
    | dbsize => exact ((scan now e).map).map
    | expiresCount => exact ((scan now e).map).map
    | flushdb => exact (flushdb e).bind (.done _ _)
    | snapshot => exact ((scan now e).map).map
  | activeExpire samplePerShard => exact (activeExpire samplePerShard now e).map

end Refines

end Script

end VeloxDb
