import Mathlib.Algebra.Order.BigOperators.Group.Finset
import VeloxDb.Common.Weight
import VeloxDb.Storage.Engine

/-!
# The invariant of the storage engine

`Accounted` says that every key lives in its own shard, that every shard's `memory_bytes` is what
its entries weigh, and that `used_memory_` is the sum of those and of what is still to be released,
within the limit (and zero without a limit). `WF` says this with nothing to be released, and that
every key and value is within its size limit. It makes the shards one map: `entries` lists its
pairs, each key once, and `find` is its lookup.

The primitive changes of an engine, erasing an entry, updating one in place and storing one, keep
both; `storeEntry` is refused exactly when the entry does not fit (`Fits`).
-/

namespace VeloxDb

open Keyed

/-- What an entry counts towards the memory limit. -/
def entryWeight (key : Bytes) (entry : Entry) : ℕ := entryMemory key entry.value

/-- Every entry is charged with something. -/
theorem entryMemory_pos (key value : Bytes) : 0 < entryMemory key value := by
  simp only [entryMemory, kEntryOverhead]
  omega

namespace StorageEngine

/-- The memory is accounted for, `pending` bytes of `used_memory_` being still to be released. -/
structure Accounted (pending : ℕ) (e : StorageEngine) : Prop where
  home : ∀ i < e.setup.shardCount, ∀ k ∈ (e.shards i).map, e.setup.shardForKey k = i
  memory : ∀ i < e.setup.shardCount,
    (e.shards i).memoryBytes = weight entryWeight (e.shards i).map.entries
  unlimited : e.maxMemoryBytes = 0 → e.usedMemory = 0
  exact : e.maxMemoryBytes ≠ 0 →
    e.usedMemory = ∑ i ∈ Finset.range e.setup.shardCount, (e.shards i).memoryBytes + pending
  bounded : e.maxMemoryBytes ≠ 0 → e.usedMemory ≤ e.maxMemoryBytes

/-- Nothing is left to be released, and every key and value is within its size limit. -/
structure WF (e : StorageEngine) : Prop extends Accounted 0 e where
  sizes : ∀ k x, e.find k = some x → e.setup.keyValid k = true ∧ e.setup.valueValid x.value = true

/-- The pairs of all shards. -/
def entries (e : StorageEngine) : List (Σ _ : Bytes, Entry) :=
  (List.range e.setup.shardCount).flatMap fun i => (e.shards i).map.entries

variable {e : StorageEngine} {k : Bytes}

/-- An engine as it is constructed. -/
theorem wf_new (setup : StorageSetup) : WF { setup } where
  home _ _ k hk := absurd hk (AList.notMem_empty k)
  memory _ _ := rfl
  unlimited _ := rfl
  exact _ := by simp
  bounded _ := Nat.zero_le _
  sizes k x hk := by simp [find] at hk

/-- A key is looked up in its shard. -/
theorem find_withShard (i : ℕ) (s : Shard) (k : Bytes) :
    (e.withShard i s).find k = if e.setup.shardForKey k = i then s.map.lookup k else e.find k := by
  simp only [find, withShard]
  split_ifs with h
  · rw [h, Function.update_self]
  · rw [Function.update_of_ne h]

/-- Inserting into a key's own shard. -/
theorem find_insert {s : Shard} {y : Entry}
    (hs : s.map = (e.shards (e.setup.shardForKey k)).map.insert k y) :
    (e.withShard (e.setup.shardForKey k) s).find = Function.update e.find k (some y) := by
  funext j
  rw [find_withShard, hs]
  by_cases hjk : j = k
  · subst hjk
    simp
  · rw [AList.lookup_insert_ne hjk, Function.update_of_ne hjk]
    split_ifs with hshard
    · rw [find, hshard]
    · rfl

/-- Erasing from a key's own shard. -/
theorem find_erase {s : Shard} (hs : s.map = (e.shards (e.setup.shardForKey k)).map.erase k) :
    (e.withShard (e.setup.shardForKey k) s).find = Function.update e.find k none := by
  funext j
  rw [find_withShard, hs]
  by_cases hjk : j = k
  · subst hjk
    simp
  · rw [AList.lookup_erase_ne hjk, Function.update_of_ne hjk]
    split_ifs with hshard
    · rw [find, hshard]
    · rfl

/-! ## Accounting -/

/-- Inserting an entry replaces the one under its key. -/
theorem weight_insert (m : AList fun _ : Bytes => Entry) (x : Entry) :
    weight entryWeight (m.insert k x).entries
      = entryWeight k x + weight entryWeight (m.erase k).entries := by
  rw [AList.entries_insert]
  rfl

namespace Accounted

variable {pending pending' : ℕ}

/-- What is stored in a shard is found under its key, which belongs there. -/
theorem find_of_mem_shard (h : e.Accounted pending) {i : ℕ} (hi : i < e.setup.shardCount)
    {p : Σ _ : Bytes, Entry} (hp : p ∈ (e.shards i).map.entries) :
    e.find p.1 = some p.2 ∧ e.setup.shardForKey p.1 = i := by
  have hhome := h.home i hi p.1 (List.mem_keys_of_mem hp)
  refine ⟨?_, hhome⟩
  rw [find, hhome]
  exact AList.mem_lookup_iff.mpr hp

/-- A shard's bytes are part of the total. -/
theorem memoryBytes_le_used (h : e.Accounted pending) (hmax : e.maxMemoryBytes ≠ 0) {i : ℕ}
    (hi : i < e.setup.shardCount) : (e.shards i).memoryBytes + pending ≤ e.usedMemory := by
  rw [h.exact hmax]
  exact Nat.add_le_add_right (Finset.single_le_sum (f := fun i => (e.shards i).memoryBytes)
    (fun _ _ => Nat.zero_le _) (Finset.mem_range.mpr hi)) pending

/-- Replacing one shard keeps the accounts when the total moves with the shard's bytes and with what
is still to be released. -/
theorem replaceShard (h : e.Accounted pending) {i : ℕ} (hi : i < e.setup.shardCount) {s : Shard}
    {used expired : ℕ} (hhome : ∀ k ∈ s.map, e.setup.shardForKey k = i)
    (hmemory : s.memoryBytes = weight entryWeight s.map.entries)
    (hunlimited : e.maxMemoryBytes = 0 → used = 0)
    (hexact : e.maxMemoryBytes ≠ 0 →
      used + (e.shards i).memoryBytes + pending = e.usedMemory + s.memoryBytes + pending')
    (hbounded : e.maxMemoryBytes ≠ 0 → used ≤ e.maxMemoryBytes) :
    (StorageEngine.mk e.setup (Function.update e.shards i s) used expired).Accounted pending' := by
  refine ⟨fun j hj k hk => ?_, fun j hj => ?_, hunlimited, fun hmax => ?_, hbounded⟩
  · by_cases hji : j = i
    · subst hji
      exact hhome k (by simpa using hk)
    · exact h.home j hj k (by simpa [hji] using hk)
  · by_cases hji : j = i
    · subst hji
      simpa using hmemory
    · simpa [hji] using h.memory j hj
  · have hsum := sum_update_add (Finset.mem_range.mpr hi) (fun j => (e.shards j).memoryBytes)
      s.memoryBytes
    have hupd : ∀ j, (Function.update e.shards i s j).memoryBytes
        = Function.update (fun j => (e.shards j).memoryBytes) i s.memoryBytes j := by
      intro j
      by_cases hji : j = i
      · subst hji
        simp
      · simp [hji]
    simp only [hupd]
    have hused := h.exact hmax
    have hmove := hexact hmax
    omega

/-- A shard is an entry and the rest. -/
theorem weight_erase_shard (h : e.Accounted pending) {x : Entry} (hk : e.find k = some x) :
    entryWeight k x + weight entryWeight
        ((e.shards (e.setup.shardForKey k)).map.erase k).entries
      = (e.shards (e.setup.shardForKey k)).memoryBytes := by
  rw [h.memory _ (e.setup.shardForKey_lt k)]
  exact weight_kerase hk

/-- What is stored under a key is part of the total. -/
theorem entryMemory_le_used (h : e.Accounted pending) (hmax : e.maxMemoryBytes ≠ 0) {x : Entry}
    (hk : e.find k = some x) : entryMemory k x.value + pending ≤ e.usedMemory := by
  have hweight := h.weight_erase_shard hk
  have hle := h.memoryBytes_le_used hmax (e.setup.shardForKey_lt k)
  simp only [entryWeight] at hweight
  omega

/-- A shard is what a key is charged with and the rest. -/
theorem keyMemory_add_weight_erase (h : e.Accounted pending) (k : Bytes) :
    e.keyMemory k + weight entryWeight ((e.shards (e.setup.shardForKey k)).map.erase k).entries
      = (e.shards (e.setup.shardForKey k)).memoryBytes := by
  rw [keyMemory]
  cases hk : e.find k with
  | some x => exact h.weight_erase_shard hk
  | none =>
    have hnot : k ∉ (e.shards (e.setup.shardForKey k)).map.keys := AList.lookup_eq_none.mp hk
    have hsame : ((e.shards (e.setup.shardForKey k)).map.erase k).entries
        = (e.shards (e.setup.shardForKey k)).map.entries := List.kerase_of_notMem_keys hnot
    rw [h.memory _ (e.setup.shardForKey_lt k), hsame]
    exact Nat.zero_add _

/-- A key is home in its own shard also after it is inserted there. -/
theorem home_insert (h : e.Accounted pending) {y : Entry} {j : Bytes}
    (hj : j ∈ (e.shards (e.setup.shardForKey k)).map.insert k y) :
    e.setup.shardForKey j = e.setup.shardForKey k := by
  rcases (AList.mem_insert _).mp hj with rfl | hj
  · rfl
  · exact h.home _ (e.setup.shardForKey_lt k) j hj

/-- Erasing an entry releases what it was charged with. -/
theorem eraseEntryLocked (h : e.Accounted pending) {x : Entry} (hk : e.find k = some x) :
    (e.eraseEntryLocked (e.setup.shardForKey k) k x).Accounted pending := by
  have hlt := e.setup.shardForKey_lt k
  have hw := h.weight_erase_shard hk
  simp only [entryWeight] at hw
  refine h.replaceShard hlt (fun j hj => ?_) ?_ (fun h0 => ?_) (fun hmax => ?_) (fun hmax => ?_)
  · exact h.home _ hlt j (AList.mem_erase.mp hj).2
  · simp only
    omega
  · simp [releaseMemory, h.unlimited h0]
  · have hle := h.memoryBytes_le_used hmax hlt
    simp only [releaseMemory]
    omega
  · have hbound := h.bounded hmax
    simp only [releaseMemory]
    omega

/-- An entry whose value stays is charged with the same. -/
theorem updateEntry (h : e.Accounted pending) {x y : Entry} (hk : e.find k = some x)
    (hv : y.value = x.value) : (e.updateEntry k y).Accounted pending := by
  have hw := h.weight_erase_shard hk
  have hyx : entryWeight k y = entryWeight k x := by rw [entryWeight, entryWeight, hv]
  refine h.replaceShard (e.setup.shardForKey_lt k) (fun j hj => h.home_insert hj) ?_ h.unlimited
    (fun _ => rfl) h.bounded
  simp only [weight_insert]
  omega

/-- The reservation that `storeEntry` begins with: what the entry grows by, if there is a limit. -/
theorem reserve_cases (h : e.Accounted pending) {bytes : ℕ} {e' : StorageEngine}
    (hr : e.reserveMemory bytes = some e') :
    e' = { e with usedMemory := if e.maxMemoryBytes = 0 then 0 else e.usedMemory + bytes } ∧
      (e.maxMemoryBytes ≠ 0 → e.usedMemory + bytes ≤ e.maxMemoryBytes) := by
  rw [reserveMemory] at hr
  split_ifs at hr with hzero hfull
  · obtain rfl := Option.some.inj hr
    rcases hzero with rfl | hmax
    · refine ⟨?_, h.bounded⟩
      by_cases hmax : e.maxMemoryBytes = 0
      · rw [if_pos hmax, ← h.unlimited hmax]
      · rw [if_neg hmax, Nat.add_zero]
    · exact ⟨by rw [if_pos hmax, ← h.unlimited hmax], fun hne => absurd hmax hne⟩
  · obtain rfl := Option.some.inj hr
    obtain ⟨-, hmax⟩ := not_or.mp hzero
    exact ⟨by rw [if_neg hmax], fun _ => by omega⟩

/-- Storing an entry, or being refused, leaves the counter exact. -/
theorem storeEntry (h : e.Accounted pending) (k value : Bytes) (expiry : Option TimePoint)
    (now : TimePoint) : (e.storeEntry k value expiry now).2.Accounted pending := by
  have hlt := e.setup.shardForKey_lt k
  have hweight := h.keyMemory_add_weight_erase k
  -- whether it grows or shrinks, the counter ends at its old value, less the old entry, plus the new
  have hstored : ∀ used, (e.maxMemoryBytes = 0 → used = 0) →
      (e.maxMemoryBytes ≠ 0 → used + e.keyMemory k = e.usedMemory + entryMemory k value ∧
        used ≤ e.maxMemoryBytes) → ∀ y : Entry, y.value = value →
      (StorageEngine.mk e.setup (Function.update e.shards (e.setup.shardForKey k)
        { e.shards (e.setup.shardForKey k) with
          map := (e.shards (e.setup.shardForKey k)).map.insert k y
          memoryBytes := (e.shards (e.setup.shardForKey k)).memoryBytes - e.keyMemory k +
            entryMemory k value }) used e.expiredKeys).Accounted pending := by
    rintro used hzero hused y rfl
    refine h.replaceShard hlt (fun j hj => h.home_insert hj) ?_ hzero (fun hmax => ?_)
      (fun hmax => (hused hmax).2)
    · simp only [weight_insert, entryWeight]
      omega
    · have hmove := (hused hmax).1
      simp only
      omega
  simp only [StorageEngine.storeEntry]
  by_cases hgrow : entryMemory k value > e.keyMemory k
  · rw [if_pos hgrow]
    cases hr : e.reserveMemory (entryMemory k value - e.keyMemory k) with
    | none => exact h
    | some e' =>
      obtain ⟨rfl, hfit⟩ := h.reserve_cases hr
      refine hstored _ (fun hmax => ?_) (fun hmax => ?_) _ rfl
      · simp [withShard, hmax]
      · have := hfit hmax
        simp only [withShard, hmax, if_false]
        omega
  · rw [if_neg hgrow]
    refine hstored _ (fun hmax => ?_) (fun hmax => ?_) _ rfl
    · simp [withShard, h.unlimited hmax]
    · have hle := h.memoryBytes_le_used hmax hlt
      have hbound := h.bounded hmax
      simp only [withShard]
      omega

end Accounted

/-! ## The shards as one map -/

namespace WF

/-- No key is in two shards. -/
theorem nodupKeys_entries (h : e.WF) : e.entries.NodupKeys := by
  have hkeys : e.entries.keys = (List.range e.setup.shardCount).flatMap
      fun i => (e.shards i).map.keys := by
    simp only [entries, List.keys, List.map_flatMap]
    rfl
  rw [List.NodupKeys, hkeys, List.nodup_flatMap]
  refine ⟨fun i _ => (e.shards i).map.keys_nodup, ?_⟩
  refine (List.nodup_range).pairwise_of_forall_ne ?_
  intro i hi j hj hij k hki hkj
  rw [List.mem_range] at hi hj
  exact hij ((h.home i hi k hki).symm.trans (h.home j hj k hkj))

/-- A key is found among all entries as in its shard. -/
theorem dlookup_entries (h : e.WF) (k : Bytes) : e.entries.dlookup k = e.find k := by
  ext x
  rw [← Option.mem_def, List.mem_dlookup_iff h.nodupKeys_entries, find, ← Option.mem_def,
    AList.mem_lookup_iff, entries, List.mem_flatMap]
  constructor
  · rintro ⟨i, hi, hx⟩
    have hik := h.home i (List.mem_range.mp hi) k (List.mem_keys_of_mem hx)
    rwa [hik]
  · exact fun hx => ⟨_, List.mem_range.mpr (e.setup.shardForKey_lt k), hx⟩

/-- The entries are those that are found under their keys. -/
theorem mem_entries (h : e.WF) {x : Entry} : ⟨k, x⟩ ∈ e.entries ↔ e.find k = some x := by
  rw [← h.dlookup_entries k, ← Option.mem_def, List.mem_dlookup_iff h.nodupKeys_entries]

/-- The entries of all shards weigh what the shards have counted. -/
theorem weight_entries (h : e.WF) : weight entryWeight e.entries
    = ∑ i ∈ Finset.range e.setup.shardCount, (e.shards i).memoryBytes := by
  have hsum : ∀ n ≤ e.setup.shardCount,
      weight entryWeight ((List.range n).flatMap fun i => (e.shards i).map.entries)
        = ∑ i ∈ Finset.range n, (e.shards i).memoryBytes := by
    intro n
    induction n with
    | zero => simp
    | succ n ih =>
      intro hn
      rw [List.range_succ, List.flatMap_append, weight_append, ih (by omega),
        Finset.sum_range_succ, h.memory n (by omega)]
      simp
  exact hsum _ le_rfl

end WF

/-- The weight of all entries but that of one key. -/
def memoryExcept (e : StorageEngine) (k : Bytes) : ℕ := weight entryWeight (e.entries.kerase k)

/-- An entry with this value can be stored under this key. -/
def Fits (e : StorageEngine) (k value : Bytes) : Prop :=
  e.maxMemoryBytes = 0 ∨ e.memoryExcept k + entryMemory k value ≤ e.maxMemoryBytes

namespace WF

/-- All memory is that of one key and of the others. -/
theorem weight_eq_memoryExcept (h : e.WF) (k : Bytes) : weight entryWeight e.entries
    = e.memoryExcept k + e.keyMemory k := by
  rw [keyMemory]
  cases hk : e.find k with
  | none =>
    have hnot : k ∉ e.entries.keys := by rw [← List.dlookup_eq_none, h.dlookup_entries, hk]
    rw [memoryExcept, List.kerase_of_notMem_keys hnot]
    rfl
  | some x =>
    have hlook : e.entries.dlookup k = some x := by rw [h.dlookup_entries, hk]
    rw [memoryExcept, ← weight_kerase hlook, entryWeight]
    simp only [Option.map_some, Option.getD_some]
    omega

/-- An engine that holds the values of another under the other keys needs as much memory for them. -/
theorem memoryExcept_le {e' : StorageEngine} (h : e.WF) (h' : e'.WF)
    (hsub : ∀ j ≠ k, ∀ x, e.find j = some x → ∃ x', e'.find j = some x' ∧ x'.value = x.value) :
    e.memoryExcept k ≤ e'.memoryExcept k := by
  refine weight_le_of_lookup (h.nodupKeys_entries.kerase k) fun j x hj => ?_
  have hjk : j ≠ k := by
    rintro rfl
    rw [List.dlookup_kerase _ h.nodupKeys_entries] at hj
    cases hj
  rw [List.dlookup_kerase_ne hjk, h.dlookup_entries] at hj
  obtain ⟨x', hx', hv⟩ := hsub j hjk x hj
  refine ⟨x', ?_, ?_⟩
  · rw [List.dlookup_kerase_ne hjk, h'.dlookup_entries, hx']
  · rw [entryWeight, entryWeight, hv]

/-- Replacing one shard keeps the invariant when the total moves with the shard's bytes. -/
theorem replaceShard (h : e.WF) {i : ℕ} (hi : i < e.setup.shardCount) {s : Shard}
    {used expired : ℕ} (hhome : ∀ k ∈ s.map, e.setup.shardForKey k = i)
    (hmemory : s.memoryBytes = weight entryWeight s.map.entries)
    (hunlimited : e.maxMemoryBytes = 0 → used = 0)
    (hexact : e.maxMemoryBytes ≠ 0 →
      used + (e.shards i).memoryBytes = e.usedMemory + s.memoryBytes)
    (hbounded : e.maxMemoryBytes ≠ 0 → used ≤ e.maxMemoryBytes)
    (hsizes : ∀ k x, s.map.lookup k = some x → e.setup.shardForKey k = i →
      e.setup.keyValid k = true ∧ e.setup.valueValid x.value = true) :
    (StorageEngine.mk e.setup (Function.update e.shards i s) used expired).WF := by
  refine ⟨h.toAccounted.replaceShard hi hhome hmemory hunlimited hexact hbounded, fun k x hk => ?_⟩
  have hk' : (e.withShard i s).find k = some x := hk
  rw [find_withShard] at hk'
  split_ifs at hk' with hki
  · exact hsizes k x hk' hki
  · exact h.sizes k x hk'

/-! ## The primitive changes -/

/-- Erasing an entry keeps the invariant. -/
theorem eraseEntryLocked (h : e.WF) {x : Entry} (hk : e.find k = some x) :
    (e.eraseEntryLocked (e.setup.shardForKey k) k x).WF := by
  refine ⟨h.toAccounted.eraseEntryLocked hk, fun j y hj => h.sizes j y ?_⟩
  have hfind : (e.eraseEntryLocked (e.setup.shardForKey k) k x).find
      = Function.update e.find k none := find_erase rfl
  rw [hfind] at hj
  by_cases hjk : j = k
  · subst hjk
    rw [Function.update_self] at hj
    cases hj
  · rwa [Function.update_of_ne hjk] at hj

/-- Erasing an expired entry keeps the invariant. -/
theorem eraseExpired (h : e.WF) {x : Entry} (hk : e.find k = some x) :
    (e.eraseExpired (e.setup.shardForKey k) k x).WF :=
  let h' := h.eraseEntryLocked hk
  ⟨⟨h'.home, h'.memory, h'.unlimited, h'.exact, h'.bounded⟩, h'.sizes⟩

/-- The sizes after an insertion under a valid key. -/
theorem sizes_insert (h : e.WF) {e' : StorageEngine} {x y : Entry} {j : Bytes}
    (hj : e'.find j = some x) (hfind : e'.find = Function.update e.find k (some y))
    (hsetup : e'.setup = e.setup) (hkey : e.setup.keyValid k = true)
    (hvalue : e.setup.valueValid y.value = true) :
    e'.setup.keyValid j = true ∧ e'.setup.valueValid x.value = true := by
  rw [hfind] at hj
  rw [hsetup]
  by_cases hjk : j = k
  · subst hjk
    rw [Function.update_self, Option.some.injEq] at hj
    exact hj ▸ ⟨hkey, hvalue⟩
  · rw [Function.update_of_ne hjk] at hj
    exact h.sizes j x hj

/-- Replacing an entry keeps the invariant. -/
theorem updateEntry (h : e.WF) {x y : Entry} (hk : e.find k = some x) (hv : y.value = x.value) :
    (e.updateEntry k y).WF := by
  obtain ⟨hkey, hvalue⟩ := h.sizes k x hk
  exact ⟨h.toAccounted.updateEntry hk hv, fun j z hj =>
    h.sizes_insert hj (find_insert rfl) rfl hkey (hv ▸ hvalue)⟩

/-- Under a limit `used_memory_` is what all entries are charged with. -/
theorem used_eq_weight (h : e.WF) (hmax : e.maxMemoryBytes ≠ 0) :
    e.usedMemory = weight entryWeight e.entries := by
  rw [h.exact hmax, Nat.add_zero, ← h.weight_entries]

/-- What `used_memory_` is made of, seen from one key. -/
theorem used_eq (h : e.WF) (hmax : e.maxMemoryBytes ≠ 0) (k : Bytes) :
    e.usedMemory = e.memoryExcept k + e.keyMemory k := by
  rw [h.used_eq_weight hmax, h.weight_eq_memoryExcept k]

/-- What fits is reserved. -/
theorem reserve_of_fits (h : e.WF) {value : Bytes} (hfit : e.Fits k value) :
    (if entryMemory k value > e.keyMemory k then
        e.reserveMemory (entryMemory k value - e.keyMemory k)
      else some e) = some { e with usedMemory :=
        if e.maxMemoryBytes = 0 then 0
        else e.usedMemory + (entryMemory k value - e.keyMemory k) } := by
  by_cases hmax : e.maxMemoryBytes = 0
  · simp [reserveMemory, hmax, ← h.unlimited hmax]
  · have hused := h.used_eq hmax k
    have hbound := h.bounded hmax
    simp only [Fits, hmax, false_or] at hfit
    simp only [reserveMemory, hmax, or_false, if_false]
    by_cases hgrow : entryMemory k value > e.keyMemory k
    · rw [if_pos hgrow, if_neg (by omega), if_neg (by omega)]
    · rw [if_neg hgrow, Nat.sub_eq_zero_of_le (by omega), Nat.add_zero]

/-- What does not fit makes the entry grow, and is refused. -/
theorem reserve_of_not_fits (h : e.WF) {value : Bytes} (hfit : ¬ e.Fits k value) :
    (if entryMemory k value > e.keyMemory k then
        e.reserveMemory (entryMemory k value - e.keyMemory k)
      else some e) = none := by
  simp only [Fits, not_or] at hfit
  obtain ⟨hmax, hfit⟩ := hfit
  have hused := h.used_eq hmax k
  have hbound := h.bounded hmax
  rw [if_pos (by omega), reserveMemory, if_neg (by omega), if_pos (by omega)]

end WF

/-- An entry that does not fit is refused, and nothing changes. -/
theorem storeEntry_of_not_fits (h : e.WF) {value : Bytes} (hfit : ¬ e.Fits k value)
    (expiry : Option TimePoint) (now : TimePoint) :
    e.storeEntry k value expiry now = (.noMemory, e) := by
  simp only [storeEntry, h.reserve_of_not_fits hfit]

/-- **An entry that fits is stored**: it is what its key finds, and no other key changes. -/
theorem storeEntry_of_fits (h : e.WF) {value : Bytes} (hkey : e.setup.keyValid k = true)
    (hvalue : e.setup.valueValid value = true) (hfit : e.Fits k value) (expiry : Option TimePoint)
    (now : TimePoint) :
    ∃ e' y, e.storeEntry k value expiry now = (.ok, e') ∧ e'.WF ∧ e'.setup = e.setup ∧
      e'.find = Function.update e.find k (some y) ∧ y.value = value ∧ y.expiry = expiry := by
  have hacc := h.toAccounted.storeEntry k value expiry now
  simp only [storeEntry, h.reserve_of_fits hfit] at hacc ⊢
  refine ⟨_, { value, expiry, version := _, lastAccess := now }, rfl, ⟨hacc, fun j z hj => ?_⟩, rfl,
    find_insert rfl, rfl, rfl⟩
  exact h.sizes_insert hj (find_insert rfl) rfl hkey hvalue

end StorageEngine

end VeloxDb
