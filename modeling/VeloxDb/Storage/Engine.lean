import Mathlib.Data.Int.Init
import Mathlib.Data.List.AList
import Mathlib.Logic.Function.Basic
import VeloxDb.Config
import VeloxDb.Util.Strings

/-!
# `storage/storage_engine.cpp`: the sharded key-value store

Every operation takes the reading `now` of `Clock::now()` that it makes and returns its result with
the engine after it. `unordered_map` is an association list without duplicate keys, in some
iteration order; `std::hash` is a field of the engine, so nothing depends on which hash it is.

Times are 64-bit counts of nanoseconds. Arithmetic on them wraps around (`wrap64`), since the source
converts milliseconds to ticks without a range check.
-/

namespace VeloxDb

open Decimal Util

/-! ## Time -/

/-- `Clock::time_point`: nanoseconds since the epoch. -/
abbrev TimePoint := ℤ

/-- The `int64_t` that a 64-bit computation leaves. -/
def wrap64 (x : ℤ) : ℤ := x.bmod (2 ^ 64)

/-- The clock counts nanoseconds. -/
def nanosPerMilli : ℤ := 1000000

/-- `tp + std::chrono::milliseconds(ms)`. -/
def addMillis (tp : TimePoint) (ms : ℤ) : TimePoint := wrap64 (tp + wrap64 (ms * nanosPerMilli))

/-- `duration_cast<milliseconds>(later - earlier)`, which truncates towards zero. -/
def millisBetween (later earlier : TimePoint) : ℤ :=
  (wrap64 (later - earlier)).tdiv nanosPerMilli

/-- `unix_ms`: the division rounds towards zero. -/
def unixMs (tp : TimePoint) : ℤ := tp.tdiv nanosPerMilli

/-- `timepoint_from_unix_ms`: the product is one of 64 bits. -/
def timepointFromUnixMs (milliseconds : ℤ) : TimePoint := wrap64 (milliseconds * nanosPerMilli)

/-! ## State -/

/-- `Entry`: a value and its deadline, with the count of its writes and the time of its last use. -/
structure Entry where
  value : Bytes
  expiry : Option TimePoint := none
  version : ℕ
  lastAccess : TimePoint
deriving DecidableEq, Repr

/-- `StorageEngine::Shard`, without its mutex. -/
structure Shard where
  map : AList fun _ : Bytes => Entry := ∅
  memoryBytes : ℕ := 0
  expireCursor : ℕ := 0

/-- What an engine is constructed with. -/
structure StorageSetup where
  config : StorageConfig
  limits : ProtocolConfig
  hash : Bytes → ℕ

namespace StorageSetup

/-- The constructor takes one shard for a configured zero. -/
def shardCount (s : StorageSetup) : ℕ := if s.config.shards = 0 then 1 else s.config.shards

/-- There is a shard. -/
theorem shardCount_pos (s : StorageSetup) : 0 < s.shardCount := by
  rw [shardCount]
  split_ifs <;> omega

/-- `shard_for_key`. -/
def shardForKey (s : StorageSetup) (key : Bytes) : ℕ := s.hash key % s.shardCount

/-- Every key has a shard. -/
theorem shardForKey_lt (s : StorageSetup) (key : Bytes) : s.shardForKey key < s.shardCount :=
  Nat.mod_lt _ s.shardCount_pos

/-- `key_valid`. -/
def keyValid (s : StorageSetup) (key : Bytes) : Bool := key.length ≤ s.limits.maxKeySize

/-- `value_valid`. -/
def valueValid (s : StorageSetup) (value : Bytes) : Bool := value.length ≤ s.limits.maxValueSize

end StorageSetup

/-- The shards are those with an index below `setup.shardCount`. -/
structure StorageEngine where
  setup : StorageSetup
  shards : ℕ → Shard := fun _ => {}
  usedMemory : ℕ := 0
  expiredKeys : ℕ := 0

/-- `SetCondition`. -/
inductive SetCondition
  | always
  | nx
  | xx
deriving DecidableEq, Repr

/-- `WriteCode`. -/
inductive WriteCode
  | ok
  | notSet
  | noMemory
  | keyTooLarge
  | valueTooLarge
  | invalidInteger
  | overflow
deriving DecidableEq, Repr

/-- `WriteResult`. -/
structure WriteResult where
  code : WriteCode
  integer : ℤ := 0
deriving DecidableEq, Repr

/-- `TtlResult`: the state, with the milliseconds left where there is a deadline. -/
inductive TtlResult
  | missing
  | noExpiry
  | hasExpiry (milliseconds : ℤ)
deriving DecidableEq, Repr

/-- `SnapshotEntry`: an entry as a snapshot has it. -/
structure SnapshotEntry where
  key : Bytes
  value : Bytes
  expireAtUnixMs : Option ℤ
deriving DecidableEq, Repr

/-- `storage_write_error`: the texts of refused writes. -/
def storageWriteError : WriteCode → Bytes
  | .ok => ascii "OK"
  | .notSet => ascii "condition not met"
  | .noMemory => ascii "OOM command not allowed when used_memory exceeds maxmemory"
  | .keyTooLarge => ascii "key exceeds configured maximum size"
  | .valueTooLarge => ascii "value exceeds configured maximum size"
  | .invalidInteger => ascii "value is not an integer or out of range"
  | .overflow => ascii "increment or decrement would overflow"

/-- `kEntryOverhead`: what an entry is charged with beside its bytes. -/
def kEntryOverhead : ℕ := 96

/-- `entry_memory`. -/
def entryMemory (key value : Bytes) : ℕ := kEntryOverhead + key.length + value.length

/-- `parse_integer_value`: unlike `parse_i64` it does not trim. -/
def parseIntegerValue (value : Bytes) : Option ℤ := if value = [] then none else wholeI64 value

/-- The number that `incr_by` starts from: zero for a missing key. -/
def currentInteger : Option Bytes → Option ℤ
  | none => some 0
  | some value => parseIntegerValue value

/-- The overflow test of `incr_by`. -/
def overflows (current delta : ℤ) : Bool :=
  (delta > 0 && current > int64Max - delta) || (delta < 0 && current < int64Min - delta)

/-- `expired`: the deadline has come. -/
def Entry.expired (entry : Entry) (now : TimePoint) : Bool :=
  match entry.expiry with
  | some deadline => deadline ≤ now
  | none => false

namespace StorageEngine

variable (e : StorageEngine)

/-- The limit; 0 is none. -/
def maxMemoryBytes : ℕ := e.setup.config.maxMemoryBytes

/-- `shard(key).map.find(key)`. -/
def find (key : Bytes) : Option Entry := (e.shards (e.setup.shardForKey key)).map.lookup key

/-- The engine with another shard in one place. -/
def withShard (i : ℕ) (s : Shard) : StorageEngine :=
  { e with shards := Function.update e.shards i s }

/-! ## Memory accounting and erasure -/

/-- Nothing when the limit would be passed. The compare-exchange loop is one step here. -/
def reserveMemory (bytes : ℕ) : Option StorageEngine :=
  if bytes = 0 ∨ e.maxMemoryBytes = 0 then some e
  else if e.usedMemory > e.maxMemoryBytes ∨ bytes > e.maxMemoryBytes - e.usedMemory then none
  else some { e with usedMemory := e.usedMemory + bytes }

/-- Truncated subtraction is the source's clamp to zero. -/
def releaseMemory (bytes : ℕ) : StorageEngine := { e with usedMemory := e.usedMemory - bytes }

/-- `erase_entry_locked`, on shard `i` and with what the iterator points to. -/
def eraseEntryLocked (i : ℕ) (key : Bytes) (entry : Entry) : StorageEngine :=
  let memory := entryMemory key entry.value
  let s := e.shards i
  (e.releaseMemory memory).withShard i
    { s with map := s.map.erase key, memoryBytes := s.memoryBytes - memory }

/-- Erase an entry that was found expired, and count it. -/
def eraseExpired (i : ℕ) (key : Bytes) (entry : Entry) : StorageEngine :=
  let e' := e.eraseEntryLocked i key entry
  { e' with expiredKeys := e'.expiredKeys + 1 }

/-- `erase_if_expired_locked`. -/
def eraseIfExpiredLocked (key : Bytes) (now : TimePoint) : Bool × StorageEngine :=
  match e.find key with
  | none => (false, e)
  | some entry =>
    if entry.expired now then (true, e.eraseExpired (e.setup.shardForKey key) key entry)
    else (false, e)

/-- The lookup that `get`, `del`, `incr_by`, `append`, `expire_at`, `ttl` and `persist` start with:
an expired entry is erased and counts as missing. -/
def findLive (key : Bytes) (now : TimePoint) : Option Entry × StorageEngine :=
  match e.find key with
  | none => (none, e)
  | some entry =>
    if entry.expired now then (none, e.eraseExpired (e.setup.shardForKey key) key entry)
    else (some entry, e)

/-- Change an entry in place without changing its value. -/
def updateEntry (key : Bytes) (entry : Entry) : StorageEngine :=
  let i := e.setup.shardForKey key
  let s := e.shards i
  e.withShard i { s with map := s.map.insert key entry }

/-- `entry_memory` of what is stored under a key, zero where nothing is. -/
def keyMemory (key : Bytes) : ℕ := ((e.find key).map fun x => entryMemory key x.value).getD 0

/-- The part that `set`, `incr_by` and `append` share once the new value is known: reserve what the
entry grows by, store it, release what it shrinks by (releasing zero bytes does nothing). -/
def storeEntry (key value : Bytes) (expiry : Option TimePoint) (now : TimePoint) :
    WriteCode × StorageEngine :=
  let oldMemory := e.keyMemory key
  let newMemory := entryMemory key value
  let version := ((e.find key).map fun x => x.version + 1).getD 1
  match if newMemory > oldMemory then e.reserveMemory (newMemory - oldMemory) else some e with
  | none => (.noMemory, e)
  | some e =>
    let i := e.setup.shardForKey key
    let s := e.shards i
    let e := e.withShard i
      { s with
        map := s.map.insert key { value, expiry, version, lastAccess := now }
        memoryBytes := s.memoryBytes - oldMemory + newMemory }
    (.ok, e.releaseMemory (oldMemory - newMemory))

/-! ## Writes -/

/-- `set`. -/
def set (key value : Bytes) (ttl : Option ℤ) (condition : SetCondition) (now : TimePoint) :
    WriteResult × StorageEngine :=
  if !e.setup.keyValid key then ({ code := .keyTooLarge }, e)
  else if !e.setup.valueValid value then ({ code := .valueTooLarge }, e)
  else
    let e := (e.eraseIfExpiredLocked key now).2
    let exist := (e.find key).isSome
    if (condition = .nx ∧ exist) ∨ (condition = .xx ∧ ¬ exist) then ({ code := .notSet }, e)
    else
      let (code, e) := e.storeEntry key value (ttl.map (addMillis now)) now
      ({ code }, e)

/-- `incr_by`. -/
def incrBy (key : Bytes) (delta : ℤ) (now : TimePoint) : WriteResult × StorageEngine :=
  if !e.setup.keyValid key then ({ code := .keyTooLarge }, e)
  else
    let (it, e) := e.findLive key now
    match currentInteger (it.map Entry.value) with
    | none => ({ code := .invalidInteger }, e)
    | some current =>
      if overflows current delta then ({ code := .overflow }, e)
      else
        let next := current + delta
        let nextValue := printInt next
        if !e.setup.valueValid nextValue then ({ code := .valueTooLarge }, e)
        else
          match e.storeEntry key nextValue none now with
          | (.ok, e) => ({ code := .ok, integer := next }, e)
          | (code, e) => ({ code }, e)

/-- `append`: the new value has no deadline. -/
def append (key suffix : Bytes) (now : TimePoint) : WriteResult × StorageEngine :=
  if !e.setup.keyValid key then ({ code := .keyTooLarge }, e)
  else
    let (it, e) := e.findLive key now
    let nextValue := (it.map Entry.value).getD [] ++ suffix
    if !e.setup.valueValid nextValue then ({ code := .valueTooLarge }, e)
    else
      match e.storeEntry key nextValue none now with
      | (.ok, e) => ({ code := .ok, integer := nextValue.length }, e)
      | (code, e) => ({ code }, e)

/-- `del` of one key: the number of keys deleted, 0 or 1. -/
def del (key : Bytes) (now : TimePoint) : ℕ × StorageEngine :=
  match e.findLive key now with
  | (none, e) => (0, e)
  | (some entry, e) => (1, e.eraseEntryLocked (e.setup.shardForKey key) key entry)

/-- `del`, key by key. -/
def delAll (e : StorageEngine) (keys : List Bytes) (now : TimePoint) : ℕ × StorageEngine :=
  keys.foldl (fun (deleted, e) key => let (n, e) := e.del key now; (deleted + n, e)) (0, e)

/-- `expire_at`: a deadline that has passed deletes. -/
def expireAt (key : Bytes) (expireAtTp now : TimePoint) : Bool × StorageEngine :=
  match e.findLive key now with
  | (none, e) => (false, e)
  | (some entry, e) =>
    if expireAtTp ≤ now then (true, e.eraseExpired (e.setup.shardForKey key) key entry)
    else
      (true, e.updateEntry key { entry with expiry := some expireAtTp, version := entry.version + 1 })

/-- `expire`: no time left deletes. -/
def expire (key : Bytes) (ttl : ℤ) (now : TimePoint) : Bool × StorageEngine :=
  if ttl ≤ 0 then
    let (deleted, e) := e.del key now
    (deleted == 1, e)
  else e.expireAt key (addMillis now ttl) now

/-- `persist`. -/
def persist (key : Bytes) (now : TimePoint) : Bool × StorageEngine :=
  match e.findLive key now with
  | (none, e) => (false, e)
  | (some entry, e) =>
    if entry.expiry = none then (false, e)
    else (true, e.updateEntry key { entry with expiry := none, version := entry.version + 1 })

/-- One iteration of the loop of `flushdb`; the memory it cleared is released at the end. -/
def flushShard (i : ℕ) : ℕ × StorageEngine :=
  let s := e.shards i
  (s.memoryBytes, e.withShard i { s with memoryBytes := 0, map := ∅ })

/-- `flushdb`. -/
def flushdb (e : StorageEngine) : StorageEngine :=
  let (released, e) := (List.range e.setup.shardCount).foldl
    (fun (released, e) i => let (n, e) := e.flushShard i; (released + n, e)) (0, e)
  e.releaseMemory released

/-! ## Reads -/

/-- `get`. -/
def get (key : Bytes) (now : TimePoint) : Option Bytes × StorageEngine :=
  match e.findLive key now with
  | (none, e) => (none, e)
  | (some entry, e) => (some entry.value, e.updateEntry key { entry with lastAccess := now })

/-- `mget`. -/
def mget (e : StorageEngine) (keys : List Bytes) (now : TimePoint) :
    List (Option Bytes) × StorageEngine :=
  keys.foldl (fun (values, e) key => let (v, e) := e.get key now; (values ++ [v], e)) ([], e)

/-- `exists`: the number of keys that `get` finds. -/
def existsCount (keys : List Bytes) (now : TimePoint) : ℕ × StorageEngine :=
  keys.foldl
    (fun (count, e) key => let (v, e) := e.get key now; (if v.isSome then count + 1 else count, e))
    (0, e)

/-- `strlen`. -/
def strlen (key : Bytes) (now : TimePoint) : ℕ × StorageEngine :=
  let (value, e) := e.get key now
  ((value.map List.length).getD 0, e)

/-- `ttl`. -/
def ttl (key : Bytes) (now : TimePoint) : TtlResult × StorageEngine :=
  match e.findLive key now with
  | (none, e) => (.missing, e)
  | (some entry, e) =>
    match entry.expiry with
    | none => (.noExpiry, e)
    | some deadline => (.hasExpiry (max 0 (millisBetween deadline now)), e)

/-! ## Scans

`dbsize`, `expires_count` and `snapshot` run one loop over all shards: expired entries are erased,
the others are visited. -/

/-- One entry of shard `i`; the entries kept so far are collected. -/
def scanEntry (now : TimePoint) (i : ℕ) (acc : List (Σ _ : Bytes, Entry) × StorageEngine)
    (p : Σ _ : Bytes, Entry) : List (Σ _ : Bytes, Entry) × StorageEngine :=
  if p.2.expired now then (acc.1, acc.2.eraseExpired i p.1 p.2) else (acc.1 ++ [p], acc.2)

/-- The walk over one shard, which erases what has expired. -/
def scanShard (now : TimePoint) (acc : List (Σ _ : Bytes, Entry) × StorageEngine) (i : ℕ) :
    List (Σ _ : Bytes, Entry) × StorageEngine :=
  (acc.2.shards i).map.entries.foldl (scanEntry now i) acc

/-- The walk over the shards that the counting calls make. -/
def scan (e : StorageEngine) (now : TimePoint) : List (Σ _ : Bytes, Entry) × StorageEngine :=
  (List.range e.setup.shardCount).foldl (scanShard now) ([], e)

/-- `dbsize`. -/
def dbsize (now : TimePoint) : ℕ × StorageEngine :=
  let (live, e) := e.scan now
  (live.length, e)

/-- `expires_count`. -/
def expiresCount (now : TimePoint) : ℕ × StorageEngine :=
  let (live, e) := e.scan now
  (live.countP fun p => p.2.expiry.isSome, e)

/-- `snapshot`. -/
def snapshot (now : TimePoint) : List SnapshotEntry × StorageEngine :=
  let (live, e) := e.scan now
  (live.map fun p => ⟨p.1, p.2.value, p.2.expiry.map unixMs⟩, e)

/-! ## Active expiration -/

/-- The body of the sampling loop of `active_expire` on shard `i`: the iterator at index `pos`, and
`count` entries erased so far; `none` is a look behind the last entry. -/
def activeExpireBody (now : TimePoint) (i : ℕ) :
    ℕ × ℕ × StorageEngine → Option (ℕ × ℕ × StorageEngine)
  | (pos, count, e) =>
    match (e.shards i).map.entries[pos]? with
    | none => none
    | some ⟨key, entry⟩ =>
      if entry.expired now then
        let e := e.eraseEntryLocked i key entry
        some (if pos = (e.shards i).map.entries.length then 0 else pos, count + 1, e)
      else
        some (if pos + 1 = (e.shards i).map.entries.length then 0 else pos + 1, count, e)

/-- The sampling loop: `left` samples to take, and `sampled` taken so far. -/
def activeExpireLoop (now : TimePoint) (i : ℕ) : ℕ → ℕ → ℕ → ℕ → StorageEngine →
    ℕ × ℕ × StorageEngine
  | 0, _, sampled, count, e => (sampled, count, e)
  | left + 1, pos, sampled, count, e =>
    if (e.shards i).map.entries = [] then (sampled, count, e)
    else
      match activeExpireBody now i (pos, count, e) with
      | none => (sampled, count, e)
      | some (pos, count, e) => activeExpireLoop now i left pos (sampled + 1) count e

/-- A round of the loop, by the entry at the iterator. -/
theorem activeExpireLoop_succ (now : TimePoint) (i left pos sampled count : ℕ) (e : StorageEngine) :
    activeExpireLoop now i (left + 1) pos sampled count e
      = match (e.shards i).map.entries[pos]? with
        | none => (sampled, count, e)
        | some ⟨key, entry⟩ =>
          if entry.expired now then
            let e := e.eraseEntryLocked i key entry
            let pos := if pos = (e.shards i).map.entries.length then 0 else pos
            activeExpireLoop now i left pos (sampled + 1) (count + 1) e
          else
            let pos := if pos + 1 = (e.shards i).map.entries.length then 0 else pos + 1
            activeExpireLoop now i left pos (sampled + 1) count e := by
  rw [activeExpireLoop, activeExpireBody]
  cases hget : (e.shards i).map.entries[pos]? with
  | none => simp
  | some x =>
    have hne : (e.shards i).map.entries ≠ [] := by
      intro hnil
      rw [hnil] at hget
      cases hget
    rw [if_neg hne]
    by_cases hexpired : x.2.expired now = true
    · simp only [hexpired, if_true]
    · simp only [hexpired, Bool.false_eq_true, if_false]

/-- One iteration of the shard loop of `active_expire`. -/
def activeExpireShard (now : TimePoint) (samplePerShard : ℕ) (acc : ℕ × StorageEngine) (i : ℕ) :
    ℕ × StorageEngine :=
  let (count, e) := acc
  let s := e.shards i
  let size := s.map.entries.length
  if size = 0 then (count, e.withShard i { s with expireCursor := 0 })
  else
    let cursor := s.expireCursor % size
    let (sampled, count, e) := activeExpireLoop now i (min samplePerShard size) cursor 0 count e
    let s := e.shards i
    let size := s.map.entries.length
    (count, e.withShard i
      { s with expireCursor := if size = 0 then 0 else (cursor + sampled) % size })

/-- `active_expire`. -/
def activeExpire (samplePerShard : ℕ) (now : TimePoint) : ℕ × StorageEngine :=
  let (count, e) := (List.range e.setup.shardCount).foldl (activeExpireShard now samplePerShard) (0, e)
  (count, { e with expiredKeys := e.expiredKeys + count })

end StorageEngine

end VeloxDb
