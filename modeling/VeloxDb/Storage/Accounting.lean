import VeloxDb.Common.Machine
import VeloxDb.Storage.Refinement

/-!
# Memory accounting

`memoryEvents` lists the reservations that an operation is granted and its calls of
`release_memory`, in their order. `Ledger` says that an engine comes from another one by such
events: `used_memory_` is the old one taken through them, it stays within the limit, and no release
asks for more than there is, so the clamp of `release_memory` to zero is never taken. Every
operation makes a `Ledger` of an engine whose memory is accounted for. This also holds while
`flushdb` is running: the shards that it has emptied are pending until its final release.
-/

namespace VeloxDb

open Decimal Util Keyed

/-- A reservation that was granted, or a call of `release_memory`. -/
inductive MemoryEvent
  | reserve (bytes : ℕ)
  | release (bytes : ℕ)
deriving DecidableEq, Repr

namespace MemoryEvent

/-- `used_memory_` after the event. Without a limit nothing is counted. -/
def after (limit used : ℕ) : MemoryEvent → ℕ
  | reserve bytes => if limit = 0 then used else used + bytes
  | release bytes => used - bytes

/-- The counter after a list of events. -/
def afterAll (limit used : ℕ) (events : List MemoryEvent) : ℕ := events.foldl (after limit) used

/-- The counter never passes the limit, and no release takes more than there is. -/
def Exact (limit : ℕ) : ℕ → List MemoryEvent → Prop
  | _, [] => True
  | used, event :: events => (∀ bytes, event = .release bytes → bytes ≤ used) ∧
      event.after limit used ≤ limit ∧ Exact limit (event.after limit used) events

/-- A list of events is exact if its parts are, one after the other. -/
theorem exact_append {limit used : ℕ} {events events' : List MemoryEvent} :
    Exact limit used (events ++ events') ↔
      Exact limit used events ∧ Exact limit (afterAll limit used events) events' := by
  induction events generalizing used with
  | nil => exact ⟨fun h => ⟨trivial, h⟩, fun h => h.2⟩
  | cons event events ih =>
    simp only [List.cons_append, Exact, ih, and_assoc]
    rfl

/-- Releasing no more than is used is exact. -/
theorem exact_release {limit used bytes : ℕ} (hbytes : bytes ≤ used) (hused : used ≤ limit) :
    Exact limit used [.release bytes] := by
  refine ⟨fun b hb => ?_, (Nat.sub_le used bytes).trans hused, trivial⟩
  cases hb
  exact hbytes

end MemoryEvent

/-! ## The events of the operations -/

namespace StorageEngine

variable (e : StorageEngine)

/-- `erase_entry_locked`. -/
def eraseEvents (key : Bytes) (entry : Entry) : List MemoryEvent :=
  [.release (entryMemory key entry.value)]

/-- The lookup that erases an expired entry. -/
def findLiveEvents (key : Bytes) (now : TimePoint) : List MemoryEvent :=
  match e.find key with
  | none => []
  | some entry => if entry.expired now then eraseEvents key entry else []

/-- The difference between the old and the new entry is reserved or released. -/
def storeEntryEvents (key value : Bytes) : List MemoryEvent :=
  let oldMemory := e.keyMemory key
  let newMemory := entryMemory key value
  if newMemory > oldMemory then
    match e.reserveMemory (newMemory - oldMemory) with
    | none => []
    | some _ => [.reserve (newMemory - oldMemory)]
  else if oldMemory > newMemory then [.release (oldMemory - newMemory)]
  else []

/-- The events of `set`. -/
def setEvents (key value : Bytes) (condition : SetCondition) (now : TimePoint) : List MemoryEvent :=
  if !e.setup.keyValid key then []
  else if !e.setup.valueValid value then []
  else
    let events := e.findLiveEvents key now
    let e := (e.eraseIfExpiredLocked key now).2
    let exist := (e.find key).isSome
    if (condition = .nx ∧ exist) ∨ (condition = .xx ∧ ¬ exist) then events
    else events ++ e.storeEntryEvents key value

/-- The events of `incr_by`. -/
def incrByEvents (key : Bytes) (delta : ℤ) (now : TimePoint) : List MemoryEvent :=
  if !e.setup.keyValid key then []
  else
    let events := e.findLiveEvents key now
    let (it, e) := e.findLive key now
    match currentInteger (it.map Entry.value) with
    | none => events
    | some current =>
      if overflows current delta then events
      else if !e.setup.valueValid (printInt (current + delta)) then events
      else events ++ e.storeEntryEvents key (printInt (current + delta))

/-- The events of `append`. -/
def appendEvents (key suffix : Bytes) (now : TimePoint) : List MemoryEvent :=
  if !e.setup.keyValid key then []
  else
    let events := e.findLiveEvents key now
    let (it, e) := e.findLive key now
    let nextValue := (it.map Entry.value).getD [] ++ suffix
    if !e.setup.valueValid nextValue then events
    else events ++ e.storeEntryEvents key nextValue

/-- The events of `del` for one key. -/
def delEvents (key : Bytes) (now : TimePoint) : List MemoryEvent :=
  e.findLiveEvents key now ++
    match (e.findLive key now).1 with
    | none => []
    | some entry => eraseEvents key entry

/-- The events of `del`, key by key. -/
def delAllEvents (now : TimePoint) : List Bytes → StorageEngine → List MemoryEvent
  | [], _ => []
  | key :: keys, e => e.delEvents key now ++ delAllEvents now keys (e.del key now).2

/-- The `get`s of `mget` and `exists`. -/
def getAllEvents (now : TimePoint) : List Bytes → StorageEngine → List MemoryEvent
  | [], _ => []
  | key :: keys, e => e.findLiveEvents key now ++ getAllEvents now keys (e.get key now).2

/-- The events of `expire_at`: a deadline that has passed deletes. -/
def expireAtEvents (key : Bytes) (expireAtTp now : TimePoint) : List MemoryEvent :=
  e.findLiveEvents key now ++
    match (e.findLive key now).1 with
    | none => []
    | some entry => if expireAtTp ≤ now then eraseEvents key entry else []

/-- The events of `expire`. -/
def expireEvents (key : Bytes) (ttl : ℤ) (now : TimePoint) : List MemoryEvent :=
  if ttl ≤ 0 then e.delEvents key now else e.expireAtEvents key (addMillis now ttl) now

/-- A walk over the shards releases the expired entries it meets. -/
def scanEntryEvents (now : TimePoint) (p : Σ _ : Bytes, Entry) : List MemoryEvent :=
  if p.2.expired now then eraseEvents p.1 p.2 else []

/-- The events of a walk, shard by shard. -/
def scanShardsEvents (now : TimePoint) : List ℕ → List (Σ _ : Bytes, Entry) × StorageEngine →
    List MemoryEvent
  | [], _ => []
  | i :: is, acc => (acc.2.shards i).map.entries.flatMap (scanEntryEvents now) ++
      scanShardsEvents now is (scanShard now acc i)

/-- The events of a walk over all shards. -/
def scanEvents (now : TimePoint) : List MemoryEvent :=
  scanShardsEvents now (List.range e.setup.shardCount) ([], e)

/-- The events of the sampling loop. -/
def activeExpireLoopEvents (now : TimePoint) (i : ℕ) : ℕ → ℕ → StorageEngine → List MemoryEvent
  | 0, _, _ => []
  | left + 1, pos, e =>
    match (e.shards i).map.entries[pos]? with
    | none => []
    | some ⟨key, entry⟩ =>
      if entry.expired now then
        let e := e.eraseEntryLocked i key entry
        let pos := if pos = (e.shards i).map.entries.length then 0 else pos
        eraseEvents key entry ++ activeExpireLoopEvents now i left pos e
      else
        let pos := if pos + 1 = (e.shards i).map.entries.length then 0 else pos + 1
        activeExpireLoopEvents now i left pos e

/-- The events of `active_expire` in one shard. -/
def activeExpireShardEvents (now : TimePoint) (samplePerShard : ℕ) (i : ℕ) : List MemoryEvent :=
  let s := e.shards i
  let size := s.map.entries.length
  if size = 0 then []
  else activeExpireLoopEvents now i (min samplePerShard size) (s.expireCursor % size) e

/-- The events of `active_expire`, shard by shard. -/
def activeExpireShardsEvents (now : TimePoint) (samplePerShard : ℕ) :
    List ℕ → ℕ × StorageEngine → List MemoryEvent
  | [], _ => []
  | i :: is, acc => acc.2.activeExpireShardEvents now samplePerShard i ++
      activeExpireShardsEvents now samplePerShard is (activeExpireShard now samplePerShard acc i)

/-- The events of `active_expire`. -/
def activeExpireEvents (samplePerShard : ℕ) (now : TimePoint) : List MemoryEvent :=
  activeExpireShardsEvents now samplePerShard (List.range e.setup.shardCount) (0, e)

/-- What an operation reserves and releases, in order. -/
def memoryEvents (now : TimePoint) : Op → List MemoryEvent
  | .set key value _ condition => e.setEvents key value condition now
  | .get key => e.findLiveEvents key now
  | .del keys => delAllEvents now keys e
  | .exist keys => getAllEvents now keys e
  | .mget keys => getAllEvents now keys e
  | .incrBy key delta => e.incrByEvents key delta now
  | .append key suffix => e.appendEvents key suffix now
  | .strlen key => e.findLiveEvents key now
  | .expire key ttl => e.expireEvents key ttl now
  | .expireAt key expireAtTp => e.expireAtEvents key expireAtTp now
  | .ttl key => e.findLiveEvents key now
  | .persist key => e.findLiveEvents key now
  | .dbsize => e.scanEvents now
  | .expiresCount => e.scanEvents now
  | .flushdb => [.release (e.flushShards e.setup.shardCount).1]
  | .snapshot => e.scanEvents now

end StorageEngine

open StorageEngine

/-! ## Ledgers -/

/-- The second engine comes from the first by these events, and is accounted for. -/
structure Ledger (pending : ℕ) (e : StorageEngine) (events : List MemoryEvent) (e' : StorageEngine) :
    Prop where
  accounted : e'.Accounted pending
  setup : e'.setup = e.setup
  counter : e'.usedMemory = MemoryEvent.afterAll e.maxMemoryBytes e.usedMemory events
  exact : e.maxMemoryBytes ≠ 0 → MemoryEvent.Exact e.maxMemoryBytes e.usedMemory events

namespace Ledger

variable {pending pending' : ℕ} {e e' e'' : StorageEngine} {events events' : List MemoryEvent} {k : Bytes}
  {now : TimePoint}

/-- No event, no change. -/
theorem refl (h : e.Accounted pending) : Ledger pending e [] e := ⟨h, rfl, rfl, fun _ => trivial⟩

/-- One ledger behind the other. -/
theorem trans (h : Ledger pending e events e') (h' : Ledger pending' e' events' e'') :
    Ledger pending' e (events ++ events') e'' := by
  have hmax : e'.maxMemoryBytes = e.maxMemoryBytes := by rw [maxMemoryBytes, h.setup]; rfl
  refine ⟨h'.accounted, h'.setup.trans h.setup, ?_, fun hne => ?_⟩
  · rw [h'.counter, h.counter, hmax, MemoryEvent.afterAll, MemoryEvent.afterAll, MemoryEvent.afterAll,
      List.foldl_append]
  · refine MemoryEvent.exact_append.mpr ⟨h.exact hne, ?_⟩
    rw [← h.counter, ← hmax]
    exact h'.exact (hmax ▸ hne)

/-- A change that touches neither the counter nor what is accounted for. -/
theorem of_silent (h : e'.Accounted pending) (hsetup : e'.setup = e.setup)
    (hused : e'.usedMemory = e.usedMemory) : Ledger pending e [] e' :=
  ⟨h, hsetup, hused, fun _ => trivial⟩

/-- A change without an event behind a ledger. -/
theorem silent (h : Ledger pending e events e') (h' : Ledger pending e' [] e'') :
    Ledger pending e events e'' :=
  List.append_nil events ▸ h.trans h'

/-- Erasing an entry releases what it is charged with. -/
theorem eraseEntryLocked (h : e.Accounted pending) {x : Entry} (hk : e.find k = some x) :
    Ledger pending e (eraseEvents k x) (e.eraseEntryLocked (e.setup.shardForKey k) k x) := by
  refine ⟨h.eraseEntryLocked hk, rfl, rfl, fun hmax => ?_⟩
  have hle := h.entryMemory_le_used hmax hk
  exact MemoryEvent.exact_release (by omega) (h.bounded hmax)

/-- Erasing an expired entry releases what it is charged with. -/
theorem eraseExpired (h : e.Accounted pending) {x : Entry} (hk : e.find k = some x) :
    Ledger pending e (eraseEvents k x) (e.eraseExpired (e.setup.shardForKey k) k x) := by
  obtain ⟨hacc, hsetup, hcounter, hexact⟩ := eraseEntryLocked h hk
  exact ⟨⟨hacc.home, hacc.memory, hacc.unlimited, hacc.exact, hacc.bounded⟩, hsetup, hcounter, hexact⟩

/-- An entry whose value stays is charged with the same. -/
theorem updateEntry (h : e.Accounted pending) {x y : Entry} (hk : e.find k = some x)
    (hv : y.value = x.value) : Ledger pending e [] (e.updateEntry k y) :=
  of_silent (h.updateEntry hk hv) rfl rfl

/-- Storing an entry moves the counter by the difference, if that is granted. -/
theorem storeEntry (h : e.Accounted pending) (k value : Bytes) (expiry : Option TimePoint)
    (now : TimePoint) :
    Ledger pending e (e.storeEntryEvents k value) (e.storeEntry k value expiry now).2 := by
  have hacc := h.storeEntry k value expiry now
  simp only [StorageEngine.storeEntry, storeEntryEvents] at hacc ⊢
  by_cases hgrow : entryMemory k value > e.keyMemory k
  · simp only [if_pos hgrow] at hacc ⊢
    cases hr : e.reserveMemory (entryMemory k value - e.keyMemory k) with
    | none => exact refl h
    | some e' =>
      rw [hr] at hacc
      obtain ⟨rfl, hfit⟩ := h.reserve_cases hr
      refine ⟨hacc, rfl, ?_, fun hmax => ⟨fun b hb => (nomatch hb), ?_, trivial⟩⟩
      · have hshrink : e.keyMemory k - entryMemory k value = 0 := by omega
        simp only [releaseMemory, withShard, hshrink, Nat.sub_zero, MemoryEvent.afterAll, List.foldl,
          MemoryEvent.after]
        split_ifs with hmax
        · exact (h.unlimited hmax).symm
        · rfl
      · rw [MemoryEvent.after, if_neg hmax]
        exact hfit hmax
  · simp only [if_neg hgrow] at hacc ⊢
    by_cases hshrink : e.keyMemory k > entryMemory k value
    · rw [if_pos hshrink]
      refine ⟨hacc, rfl, rfl, fun hmax => MemoryEvent.exact_release ?_ (h.bounded hmax)⟩
      have hweight := h.keyMemory_add_weight_erase k
      have hle := h.memoryBytes_le_used hmax (e.setup.shardForKey_lt k)
      omega
    · rw [if_neg hshrink]
      refine of_silent hacc rfl ?_
      simp only [releaseMemory, withShard]
      omega

/-- The lookup; what it finds is stored. -/
theorem findLive (h : e.Accounted pending) (k : Bytes) (now : TimePoint) :
    Ledger pending e (e.findLiveEvents k now) (e.findLive k now).2 ∧
      ∀ x, (e.findLive k now).1 = some x → (e.findLive k now).2.find k = some x := by
  rw [findLiveEvents, StorageEngine.findLive]
  cases hk : e.find k with
  | none => exact ⟨refl h, fun x hx => by cases hx⟩
  | some x =>
    by_cases hexp : x.expired now = true
    · simp only [if_pos hexp]
      exact ⟨eraseExpired h hk, fun y hy => by cases hy⟩
    · simp only [if_neg hexp]
      exact ⟨refl h, fun y hy => by rw [hk, ← hy]⟩

/-! ## One operation -/

/-- `set` keeps the counter exact. -/
theorem set (h : e.Accounted pending) (key value : Bytes) (ttl : Option ℤ) (condition : SetCondition)
    (now : TimePoint) : Ledger pending e (e.setEvents key value condition now)
      (e.set key value ttl condition now).2 := by
  have hlive := (findLive h key now).1
  rw [← eraseIfExpiredLocked_eq] at hlive
  simp only [setEvents, StorageEngine.set]
  split_ifs with hkey hvalue hcond
  · exact refl h
  · exact refl h
  · exact hlive
  · exact hlive.trans (storeEntry hlive.accounted key value _ now)

/-- What `incr_by` and `append` return from `storeEntry`. -/
theorem storeEntry_result (h : e.Accounted pending) (k value : Bytes) (integer : ℤ) :
    Ledger pending e (e.storeEntryEvents k value)
      (match e.storeEntry k value none now with
        | (.ok, e) => (({ code := .ok, integer } : WriteResult), e)
        | (code, e) => ({ code }, e)).2 := by
  have hstore := storeEntry h k value none now
  generalize e.storeEntry k value none now = r at hstore ⊢
  obtain ⟨code, e'⟩ := r
  cases code <;> exact hstore

/-- `incr_by` keeps the counter exact. -/
theorem incrBy (h : e.Accounted pending) (key : Bytes) (delta : ℤ) (now : TimePoint) :
    Ledger pending e (e.incrByEvents key delta now) (e.incrBy key delta now).2 := by
  have hlive := (findLive h key now).1
  simp only [incrByEvents, StorageEngine.incrBy]
  split_ifs with hkey
  · exact refl h
  · cases currentInteger ((e.findLive key now).1.map Entry.value) with
    | none => exact hlive
    | some current =>
      simp only
      split_ifs with hover hvalue
      · exact hlive
      · exact hlive
      · exact hlive.trans (storeEntry_result hlive.accounted _ _ _)

/-- `append` keeps the counter exact. -/
theorem append (h : e.Accounted pending) (key suffix : Bytes) (now : TimePoint) :
    Ledger pending e (e.appendEvents key suffix now) (e.append key suffix now).2 := by
  have hlive := (findLive h key now).1
  simp only [appendEvents, StorageEngine.append]
  split_ifs with hkey hvalue
  · exact refl h
  · exact hlive
  · exact hlive.trans (storeEntry_result hlive.accounted _ _ _)

/-- `del` of one key keeps the counter exact. -/
theorem del (h : e.Accounted pending) (key : Bytes) (now : TimePoint) :
    Ledger pending e (e.delEvents key now) (e.del key now).2 := by
  obtain ⟨hlive, hfind⟩ := findLive h key now
  rw [delEvents, StorageEngine.del]
  generalize e.findLive key now = r at hlive hfind ⊢
  obtain ⟨it, e'⟩ := r
  cases it with
  | none => exact hlive.trans (refl hlive.accounted)
  | some x => exact hlive.trans (eraseEntryLocked hlive.accounted (hfind x rfl))

/-- `expire_at` keeps the counter exact. -/
theorem expireAt (h : e.Accounted pending) (key : Bytes) (expireAtTp now : TimePoint) :
    Ledger pending e (e.expireAtEvents key expireAtTp now) (e.expireAt key expireAtTp now).2 := by
  obtain ⟨hlive, hfind⟩ := findLive h key now
  rw [expireAtEvents, StorageEngine.expireAt]
  generalize e.findLive key now = r at hlive hfind ⊢
  obtain ⟨it, e'⟩ := r
  cases it with
  | none => exact hlive.trans (refl hlive.accounted)
  | some x =>
    refine hlive.trans ?_
    simp only
    split_ifs with hpast
    · exact eraseExpired hlive.accounted (hfind x rfl)
    · exact updateEntry hlive.accounted (hfind x rfl) rfl

/-- `expire` keeps the counter exact. -/
theorem expire (h : e.Accounted pending) (key : Bytes) (ttl : ℤ) (now : TimePoint) :
    Ledger pending e (e.expireEvents key ttl now) (e.expire key ttl now).2 := by
  rw [expireEvents, StorageEngine.expire]
  split_ifs with httl
  · exact del h key now
  · exact expireAt h key _ now

/-- `persist` keeps the counter exact. -/
theorem persist (h : e.Accounted pending) (key : Bytes) (now : TimePoint) :
    Ledger pending e (e.findLiveEvents key now) (e.persist key now).2 := by
  obtain ⟨hlive, hfind⟩ := findLive h key now
  rw [StorageEngine.persist]
  generalize e.findLive key now = r at hlive hfind ⊢
  obtain ⟨it, e'⟩ := r
  cases it with
  | none => exact hlive
  | some x =>
    simp only
    split_ifs with hnone
    · exact hlive
    · exact hlive.silent (updateEntry hlive.accounted (hfind x rfl) rfl)

/-- `get` keeps the counter exact. -/
theorem get (h : e.Accounted pending) (key : Bytes) (now : TimePoint) :
    Ledger pending e (e.findLiveEvents key now) (e.get key now).2 := by
  obtain ⟨hlive, hfind⟩ := findLive h key now
  rw [StorageEngine.get]
  generalize e.findLive key now = r at hlive hfind ⊢
  obtain ⟨it, e'⟩ := r
  cases it with
  | none => exact hlive
  | some x => exact hlive.silent (updateEntry hlive.accounted (hfind x rfl) rfl)

/-- `ttl` keeps the counter exact. -/
theorem ttl (h : e.Accounted pending) (key : Bytes) (now : TimePoint) :
    Ledger pending e (e.findLiveEvents key now) (e.ttl key now).2 := by
  have hlive := (findLive h key now).1
  rw [StorageEngine.ttl]
  generalize e.findLive key now = r at hlive ⊢
  obtain ⟨it, e'⟩ := r
  cases it with
  | none => exact hlive
  | some x =>
    obtain ⟨value, expiry, version, lastAccess⟩ := x
    cases expiry <;> exact hlive

/-! ## Loops -/

/-- `del` keeps the counter exact, key by key. -/
theorem delAll (h : e.Accounted pending) (keys : List Bytes) (now : TimePoint) :
    Ledger pending e (delAllEvents now keys e) (e.delAll keys now).2 := by
  rw [StorageEngine.delAll]
  generalize 0 = deleted
  induction keys generalizing e deleted with
  | nil => exact refl h
  | cons key keys ih =>
    have hdel := del h key now
    exact hdel.trans (ih hdel.accounted _)

/-- A loop of `get`s. -/
theorem getAll {α : Type} (f : α → Option Bytes → α) (h : e.Accounted pending) (keys : List Bytes)
    (a : α) : Ledger pending e (getAllEvents now keys e)
      (keys.foldl (fun (acc : α × StorageEngine) key =>
        (f acc.1 (acc.2.get key now).1, (acc.2.get key now).2)) (a, e)).2 := by
  induction keys generalizing e a with
  | nil => exact refl h
  | cons key keys ih =>
    have hget := get h key now
    exact hget.trans (ih hget.accounted _)

/-- The scan of some entries of a shard. -/
theorem scanEntries (h : e.Accounted pending) {i : ℕ} (l : List (Σ _ : Bytes, Entry))
    (hl : l.NodupKeys) (hfind : ∀ p ∈ l, e.find p.1 = some p.2 ∧ e.setup.shardForKey p.1 = i)
    (acc : List (Σ _ : Bytes, Entry)) :
    Ledger pending e (l.flatMap (scanEntryEvents now)) (l.foldl (scanEntry now i) (acc, e)).2 := by
  induction l generalizing e acc with
  | nil => exact refl h
  | cons p l ih =>
    obtain ⟨k, x⟩ := p
    obtain ⟨hk, hl⟩ := List.nodupKeys_cons.mp hl
    obtain ⟨hkx, rfl⟩ := hfind ⟨k, x⟩ List.mem_cons_self
    simp only [List.flatMap_cons, List.foldl_cons, scanEntryEvents, scanEntry]
    split_ifs with hexp
    · have herase := eraseExpired h hkx
      refine herase.trans (ih herase.accounted hl (fun q hq => ?_) acc)
      -- the other entries are still there
      have hqk : q.1 ≠ k := by
        have hmem : q.1 ∈ l.keys := List.mem_keys_of_mem hq
        rintro rfl
        exact hk hmem
      obtain ⟨hq', hhome⟩ := hfind q (List.mem_cons_of_mem _ hq)
      refine ⟨?_, hhome⟩
      have hother : (e.eraseExpired (e.setup.shardForKey k) k x).find
          = Function.update e.find k none := find_erase rfl
      rw [hother, Function.update_of_ne hqk, hq']
    · exact ih h hl (fun q hq => hfind q (List.mem_cons_of_mem _ hq)) _

/-- A walk over some shards keeps the counter exact. -/
theorem scanShards (h : e.Accounted pending) (is : List ℕ) (his : ∀ i ∈ is, i < e.setup.shardCount)
    (acc : List (Σ _ : Bytes, Entry)) :
    Ledger pending e (scanShardsEvents now is (acc, e)) (is.foldl (scanShard now) (acc, e)).2 := by
  induction is generalizing e acc with
  | nil => exact refl h
  | cons i is ih =>
    have hshard : Ledger pending e _ (scanShard now (acc, e) i).2 := scanEntries h _
      (e.shards i).map.nodupKeys
      (fun p hp => h.find_of_mem_shard (his i List.mem_cons_self) hp) acc
    exact hshard.trans (ih hshard.accounted
      (fun j hj => hshard.setup ▸ his j (List.mem_cons_of_mem _ hj)) _)

/-- A walk over all shards keeps the counter exact. -/
theorem scan (h : e.Accounted pending) (now : TimePoint) :
    Ledger pending e (e.scanEvents now) (e.scan now).2 :=
  scanShards h _ (fun _ hi => List.mem_range.mp hi) []

variable (now) in
/-- The sampling loop keeps the counter exact, round by round. -/
theorem activeExpireLoop (h : e.Accounted pending) {i : ℕ} (hi : i < e.setup.shardCount)
    (left pos sampled count : ℕ) : Ledger pending e (activeExpireLoopEvents now i left pos e)
      (StorageEngine.activeExpireLoop now i left pos sampled count e).2.2 := by
  induction left generalizing e pos sampled count with
  | zero => exact refl h
  | succ left ih =>
    simp only [activeExpireLoopEvents, StorageEngine.activeExpireLoop_succ]
    cases hget : (e.shards i).map.entries[pos]? with
    | none => exact refl h
    | some p =>
      obtain ⟨key, entry⟩ := p
      obtain ⟨hkey, rfl⟩ := h.find_of_mem_shard hi (List.mem_of_getElem? hget)
      by_cases hexp : entry.expired now = true
      · simp only [if_pos hexp]
        have herase := eraseEntryLocked h hkey
        exact herase.trans (ih herase.accounted hi _ _ _)
      · simp only [if_neg hexp]
        exact ih h hi _ _ _

/-- The cursor of a shard is not accounted for. -/
theorem cursor (h : e.Accounted pending) {i : ℕ} (hi : i < e.setup.shardCount) (cursor : ℕ) :
    Ledger pending e [] (e.withShard i { e.shards i with expireCursor := cursor }) :=
  of_silent (h.replaceShard hi (h.home i hi) (h.memory i hi) h.unlimited (fun _ => rfl) h.bounded)
    rfl rfl

variable (now) in
/-- `active_expire` in one shard keeps the counter exact. -/
theorem activeExpireShard (h : e.Accounted pending) {i : ℕ} (hi : i < e.setup.shardCount)
    (samplePerShard count : ℕ) : Ledger pending e (e.activeExpireShardEvents now samplePerShard i)
      (StorageEngine.activeExpireShard now samplePerShard (count, e) i).2 := by
  simp only [activeExpireShardEvents, StorageEngine.activeExpireShard]
  by_cases hsize : (e.shards i).map.entries.length = 0
  · simp only [if_pos hsize]
    exact cursor h hi 0
  · simp only [if_neg hsize]
    have hloop : Ledger pending e _ _ := activeExpireLoop now h hi
      (min samplePerShard (e.shards i).map.entries.length)
      ((e.shards i).expireCursor % (e.shards i).map.entries.length) 0 count
    exact hloop.silent (cursor hloop.accounted (hloop.setup ▸ hi) _)

variable (now) in
/-- `active_expire` in some shards keeps the counter exact. -/
theorem activeExpireShards (h : e.Accounted pending) (samplePerShard : ℕ) (is : List ℕ)
    (his : ∀ i ∈ is, i < e.setup.shardCount) (count : ℕ) :
    Ledger pending e (activeExpireShardsEvents now samplePerShard is (count, e))
      (is.foldl (StorageEngine.activeExpireShard now samplePerShard) (count, e)).2 := by
  induction is generalizing e count with
  | nil => exact refl h
  | cons i is ih =>
    have hshard := activeExpireShard now h (his i List.mem_cons_self) samplePerShard count
    exact hshard.trans (ih hshard.accounted
      (fun j hj => hshard.setup ▸ his j (List.mem_cons_of_mem _ hj)) _)

/-- `active_expire` keeps the counter exact. -/
theorem activeExpire (h : e.Accounted pending) (samplePerShard : ℕ) (now : TimePoint) :
    Ledger pending e (e.activeExpireEvents samplePerShard now)
      (e.activeExpire samplePerShard now).2 := by
  obtain ⟨hacc, hsetup, hcounter, hexact⟩ := activeExpireShards now h samplePerShard
    (List.range e.setup.shardCount) (fun _ hi => List.mem_range.mp hi) 0
  exact ⟨⟨hacc.home, hacc.memory, hacc.unlimited, hacc.exact, hacc.bounded⟩, hsetup, hcounter, hexact⟩

/-! ## Flushing -/

end Ledger

namespace StorageEngine.Accounted

variable {pending : ℕ} {e : StorageEngine}

/-- What a step of `flushdb` clears is pending from then on. -/
theorem flushShard (h : e.Accounted pending) {i : ℕ} (hi : i < e.setup.shardCount) :
    (e.flushShard i).2.Accounted (pending + (e.flushShard i).1) := by
  refine h.replaceShard hi (fun k hk => absurd hk (AList.notMem_empty k)) rfl h.unlimited
    (fun _ => ?_) h.bounded
  simp only [StorageEngine.flushShard]
  omega

theorem releaseMemory {bytes : ℕ} (h : e.Accounted (pending + bytes)) :
    (e.releaseMemory bytes).Accounted pending := by
  refine ⟨h.home, h.memory, fun hmax => ?_, fun hmax => ?_, fun hmax => ?_⟩
  · rw [StorageEngine.releaseMemory, h.unlimited hmax, Nat.zero_sub]
  · have hused := h.exact hmax
    simp only [StorageEngine.releaseMemory]
    omega
  · exact (Nat.sub_le _ _).trans (h.bounded hmax)

/-- What the shards were charged with is pending when they have been emptied. -/
theorem flushShards (h : e.Accounted pending) {n : ℕ} (hn : n ≤ e.setup.shardCount) :
    (e.flushShards n).2.Accounted (pending + (e.flushShards n).1) := by
  induction n with
  | zero => exact h
  | succ n ih =>
    have hsetup := (flushShards_spec e n).2.1
    have hstep := (ih (by omega)).flushShard (i := n) (by rw [hsetup]; omega)
    rw [flushShards_succ, ← Nat.add_assoc]
    exact hstep

end StorageEngine.Accounted

namespace Ledger

variable {pending : ℕ} {e : StorageEngine} {now : TimePoint}

theorem releaseMemory {bytes : ℕ} (h : e.Accounted (pending + bytes)) :
    Ledger pending e [.release bytes] (e.releaseMemory bytes) := by
  refine ⟨h.releaseMemory, rfl, rfl, fun hmax => MemoryEvent.exact_release ?_ (h.bounded hmax)⟩
  have hused := h.exact hmax
  omega

/-- `flushdb` releases what the shards were charged with. -/
theorem flushdb (h : e.Accounted pending) :
    Ledger pending e [.release (e.flushShards e.setup.shardCount).1] e.flushdb := by
  obtain ⟨-, hsetup, hused, -⟩ := flushShards_spec e e.setup.shardCount
  obtain ⟨hacc, hset, hcounter, hexact⟩ := releaseMemory (h.flushShards le_rfl)
  have hmax : (e.flushShards e.setup.shardCount).2.maxMemoryBytes = e.maxMemoryBytes := by
    rw [maxMemoryBytes, hsetup]
    rfl
  rw [hused, hmax] at hcounter hexact
  exact ⟨hacc, hset.trans hsetup, hcounter, hexact⟩

/-- **Every operation keeps the books**: its reservations and releases lead from the counter before it
to the counter behind it. -/
theorem apply (h : e.Accounted pending) (now : TimePoint) (op : Op) :
    Ledger pending e (e.memoryEvents now op) (e.apply now op).2 := by
  cases op with
  | set key value ttl condition => exact set h key value ttl condition now
  | get key => exact get h key now
  | del keys => exact delAll h keys now
  | exist keys => exact getAll (fun count v => if v.isSome then count + 1 else count) h keys 0
  | mget keys => exact getAll (fun values v => values ++ [v]) h keys []
  | incrBy key delta => exact incrBy h key delta now
  | append key suffix => exact append h key suffix now
  | strlen key => exact get h key now
  | expire key ttl => exact expire h key ttl now
  | expireAt key expireAtTp => exact expireAt h key expireAtTp now
  | ttl key => exact ttl h key now
  | persist key => exact persist h key now
  | dbsize => exact scan h now
  | expiresCount => exact scan h now
  | flushdb => exact flushdb h
  | snapshot => exact scan h now

end Ledger

/-! ## Runs -/

/-- A running `flushdb`: the shard it empties next, and the bytes it has cleared. -/
structure Flush where
  next : ℕ := 0
  released : ℕ := 0

/-- An engine with the `flushdb`s that are running on it. -/
structure StorageActivity where
  engine : StorageEngine
  flushes : List Flush := []

/-- What the threads do to the engine, a `flushdb` in its steps. -/
inductive StorageAction
  /-- A call that runs to its end. -/
  | call (now : TimePoint) (call : Call)
  /-- A thread enters `flushdb`. -/
  | beginFlush
  /-- The `j`-th running `flushdb` empties one shard; after the last one, it releases the memory and
  returns. -/
  | stepFlush (j : ℕ)

namespace StorageActivity

/-- What the running `flushdb`s have cleared but not yet released. -/
def pending (s : StorageActivity) : ℕ := (s.flushes.map Flush.released).sum

/-- One action. -/
def step (s : StorageActivity) : StorageAction → StorageActivity
  | .call now (.op op) => { s with engine := (s.engine.apply now op).2 }
  | .call now (.activeExpire samplePerShard) =>
    { s with engine := (s.engine.activeExpire samplePerShard now).2 }
  | .beginFlush => { s with flushes := s.flushes ++ [{}] }
  | .stepFlush j =>
    match s.flushes[j]? with
    | none => s
    | some f =>
      if f.next < s.engine.setup.shardCount then
        let (n, engine) := s.engine.flushShard f.next
        { engine, flushes := s.flushes.set j ⟨f.next + 1, f.released + n⟩ }
      else { engine := s.engine.releaseMemory f.released, flushes := s.flushes.eraseIdx j }

/-- The events of a step. -/
def memoryEvents (s : StorageActivity) : StorageAction → List MemoryEvent
  | .call now (.op op) => s.engine.memoryEvents now op
  | .call now (.activeExpire samplePerShard) => s.engine.activeExpireEvents samplePerShard now
  | .beginFlush => []
  | .stepFlush j =>
    match s.flushes[j]? with
    | none => []
    | some f =>
      if f.next < s.engine.setup.shardCount then [] else [.release f.released]

/-- A run from a new engine. -/
abbrev run (setup : StorageSetup) (actions : List StorageAction) : StorageActivity :=
  Machine.run step { engine := { setup } } actions

variable {s : StorageActivity}

/-- A running `flushdb` after `n` steps with nothing in between. -/
theorem run_stepFlush (s : StorageActivity) {n : ℕ} (hn : n ≤ s.engine.setup.shardCount) :
    Machine.run step s (.beginFlush :: List.replicate n (.stepFlush s.flushes.length)) =
      { engine := (s.engine.flushShards n).2
        flushes := s.flushes ++ [⟨n, (s.engine.flushShards n).1⟩] } := by
  induction n with
  | zero => rfl
  | succ n ih =>
    have hsetup := (flushShards_spec s.engine n).2.1
    rw [List.replicate_succ', ← List.cons_append, Machine.run_append, ih (by omega)]
    simp only [Machine.run_cons, Machine.run_nil, step, List.getElem?_concat_length, hsetup]
    rw [if_pos (by omega), flushShards_succ]
    simp

/-- Its steps, taken one after the other, are the operation. -/
theorem run_flush (s : StorageActivity) :
    Machine.run step s (.beginFlush ::
        List.replicate (s.engine.setup.shardCount + 1) (.stepFlush s.flushes.length)) =
      s.step (.call 0 (.op .flushdb)) := by
  have hsetup := (flushShards_spec s.engine s.engine.setup.shardCount).2.1
  rw [List.replicate_succ', ← List.cons_append, Machine.run_append, run_stepFlush s le_rfl]
  simp only [Machine.run_cons, Machine.run_nil, step, List.getElem?_concat_length, hsetup]
  rw [if_neg (lt_irrefl _), List.eraseIdx_append_of_length_le le_rfl, Nat.sub_self]
  simp [StorageEngine.apply, StorageEngine.flushdb, flushShards]

/-- One running `flushdb` and the others. -/
theorem pending_eq {j : ℕ} {f : Flush} (hj : s.flushes[j]? = some f) :
    s.pending = ((s.flushes.eraseIdx j).map Flush.released).sum + f.released := by
  obtain ⟨hlt, rfl⟩ := List.getElem?_eq_some_iff.mp hj
  have hperm := (List.getElem_cons_eraseIdx_perm hlt).map Flush.released
  rw [pending, ← hperm.sum_eq, List.map_cons, List.sum_cons, Nat.add_comm]

/-- What the running `flushdb` calls hold back, after a step of one of them. -/
theorem sum_set {j : ℕ} {f : Flush} (hj : s.flushes[j]? = some f) (f' : Flush) :
    ((s.flushes.set j f').map Flush.released).sum
      = ((s.flushes.eraseIdx j).map Flush.released).sum + f'.released := by
  have hperm := (List.set_perm_cons_eraseIdx (List.getElem?_eq_some_iff.mp hj).1 f').map Flush.released
  rw [hperm.sum_eq, List.map_cons, List.sum_cons, Nat.add_comm]

/-- **One step** makes its events, and the engine is accounted for with what is pending after it. -/
theorem ledger_step (h : s.engine.Accounted s.pending) (a : StorageAction) :
    Ledger (s.step a).pending s.engine (s.memoryEvents a) (s.step a).engine := by
  cases a with
  | call now call =>
    cases call with
    | op op => exact Ledger.apply h now op
    | activeExpire samplePerShard => exact Ledger.activeExpire h samplePerShard now
  | beginFlush =>
    have hpending : (s.step .beginFlush).pending = s.pending := by simp [step, pending]
    rw [hpending]
    exact Ledger.refl h
  | stepFlush j =>
    simp only [step, memoryEvents]
    cases hj : s.flushes[j]? with
    | none => exact Ledger.refl h
    | some f =>
      rw [pending_eq hj] at h
      by_cases hnext : f.next < s.engine.setup.shardCount
      · -- the bytes of the shard become pending
        simp only [if_pos hnext]
        have hflush := h.flushShard hnext
        rw [Nat.add_assoc] at hflush
        refine Ledger.of_silent ?_ rfl rfl
        rw [pending, sum_set hj]
        exact hflush
      · simp only [if_neg hnext]
        exact Ledger.releaseMemory h

/-- **In every run the counter is exact**, up to what the running `flushdb` calls hold back. -/
theorem accounted_run (setup : StorageSetup) (actions : List StorageAction) :
    (run setup actions).engine.Accounted (run setup actions).pending ∧
      (run setup actions).engine.setup = setup := by
  refine Machine.run_invariant (P := fun _ _ => True)
    (I := fun s : StorageActivity => s.engine.Accounted s.pending ∧ s.engine.setup = setup)
    (fun s a hs _ => ?_) ⟨(wf_new setup).toAccounted, rfl⟩ (Machine.allSteps_true _ _)
  have hledger := ledger_step hs.1 a
  exact ⟨hledger.accounted, hledger.setup.trans hs.2⟩

/-- **Accounting.** After any run, every shard's bytes are the sum over its entries. With a limit,
`used_memory_` is the sum over the shards and over what running `flushdb`s have cleared but not
released, and within the limit; and whatever comes next, it moves by the events of that step, stays
within the limit and is never clamped to zero. Without a limit it is zero. -/
theorem memory_accounted (setup : StorageSetup) (actions : List StorageAction) :
    let s := run setup actions
    let limit := setup.config.maxMemoryBytes
    (∀ i < setup.shardCount, (s.engine.shards i).memoryBytes =
        ((s.engine.shards i).map.entries.map fun p => entryMemory p.1 p.2.value).sum) ∧
      (0 < limit →
        s.engine.usedMemory =
            ∑ i ∈ Finset.range setup.shardCount, (s.engine.shards i).memoryBytes + s.pending ∧
          s.engine.usedMemory ≤ limit ∧
          ∀ a, (s.step a).engine.usedMemory =
              MemoryEvent.afterAll limit s.engine.usedMemory (s.memoryEvents a) ∧
            MemoryEvent.Exact limit s.engine.usedMemory (s.memoryEvents a)) ∧
      (limit = 0 → s.engine.usedMemory = 0) := by
  intro s limit
  obtain ⟨hacc, hsetup⟩ := accounted_run setup actions
  have hlimit : s.engine.maxMemoryBytes = limit := by rw [maxMemoryBytes, hsetup]
  refine ⟨fun i hi => ?_, fun hpos => ?_, fun hzero => hacc.unlimited (hlimit.trans hzero)⟩
  · exact hacc.memory i (by rw [hsetup]; exact hi)
  · have hne : s.engine.maxMemoryBytes ≠ 0 := by omega
    refine ⟨?_, hlimit ▸ hacc.bounded hne, fun a => ?_⟩
    · have hexact := hacc.exact hne
      rw [hsetup] at hexact
      exact hexact
    · have hledger := ledger_step hacc a
      rw [← hlimit]
      exact ⟨hledger.counter, hledger.exact hne⟩

end StorageActivity

end VeloxDb
