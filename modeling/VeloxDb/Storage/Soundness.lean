import VeloxDb.Storage.Scripts

/-!
# The programs of the storage are sound

A program of the storage takes one mutex at a time, touches only the shard behind it and leaves
`memory_bytes` equal to the memory of the entries. Inside a mutex it may use the size of the shard and
what it has reserved (`Keeps`), outside what it has cleared and not yet released, as `flushdb` does
(`Owes`); in the end it has given back exactly that.
-/

namespace VeloxDb

open Decimal Util Keyed Reservation

namespace Script

variable {α β : Type} {p : Script α}

/-- `memory_bytes` of a shard is the memory of its entries. -/
def Exact (s : Shard) : Prop := s.memoryBytes = weight entryWeight s.map.entries

/-- What the mutexes protect. -/
def discipline (setup : StorageSetup) : Discipline ℕ Shard where
  all := Finset.range setup.shardCount
  size := Shard.memoryBytes
  Ok := Exact

variable {setup : StorageSetup} {i : ℕ} {s : Shard} {post : α → Shard → Prop}

/-- What is stored under a key, with what is left without it. -/
theorem lookup_add_weight_erase (s : Shard) (key : Bytes) :
    ((s.map.lookup key).map fun x => entryMemory key x.value).getD 0 +
      weight entryWeight (s.map.erase key).entries = weight entryWeight s.map.entries := by
  cases hk : s.map.lookup key with
  | some x => exact weight_kerase (w := entryWeight) hk
  | none =>
    have hnot : key ∉ s.map.keys := AList.lookup_eq_none.mp hk
    have hsame : (s.map.erase key).entries = s.map.entries := List.kerase_of_notMem_keys hnot
    rw [hsame]
    exact Nat.zero_add _

/-- Inside a mutex: next to what it owes, a thread may use the size of the shard, at the start and in
the end. -/
def Keeps (setup : StorageSetup) (i : ℕ) (p : Script α) (s : Shard) (post : α → Shard → Prop) : Prop :=
  ∀ owed, p.wp (discipline setup)
    (fun r lk avail => ∃ s', lk = some (i, s') ∧ Exact s' ∧ avail = owed + s'.memoryBytes ∧ post r s')
    (some (i, s)) (owed + s.memoryBytes)

namespace Keeps

/-- A result without a step. -/
theorem done {a : α} (hs : Exact s) (ha : post a s) : Keeps setup i (pure a) s post :=
  fun _ => ⟨s, rfl, hs, rfl, ha⟩

/-- One script after the other, from the shard that the first leaves. -/
theorem bind {f : α → Script β} {post' : β → Shard → Prop} (h : Keeps setup i p s post)
    (hf : ∀ r s', Exact s' → post r s' → Keeps setup i (f r) s' post') :
    Keeps setup i (p >>= f) s post' := by
  intro owed
  rw [Prog.wp_bind]
  refine Prog.wp_mono (h owed) ?_
  rintro r lk avail ⟨s', rfl, hs', rfl, hr⟩
  exact hf r s' hs' hr owed

/-- The result does not matter. -/
theorem weaken {post' : α → Shard → Prop} (h : Keeps setup i p s post)
    (hpost : ∀ r s', post r s' → post' r s') : Keeps setup i p s post' :=
  fun owed => Prog.wp_mono (h owed) fun r _ _ ⟨s', hlk, hs', havail, hr⟩ =>
    ⟨s', hlk, hs', havail, hpost r s' hr⟩

/-- A look sees the shard that is held. -/
theorem look {f : Shard → Script α} (h : Keeps setup i (f s) s post) :
    Keeps setup i (look i >>= f) s post :=
  fun owed => ⟨s, rfl, h owed⟩

/-- A change that does not change the size. -/
theorem modify {f : Shard → Shard} (hs : Exact (f s)) (hsize : (f s).memoryBytes = s.memoryBytes) :
    Keeps setup i (modify i f) s fun _ s' => s' = f s :=
  fun _ => ⟨s, rfl, f s, rfl, hs, by rw [hsize], rfl⟩

/-- The memory of an entry is released, and then the entry is erased. -/
theorem eraseEntryLocked (hs : Exact s) {key : Bytes} {entry : Entry}
    (hkey : s.map.lookup key = some entry) :
    Keeps setup i (eraseEntryLocked i key entry) s fun _ s' => s'.map = s.map.erase key := by
  have hweight : entryMemory key entry.value + weight entryWeight (s.map.erase key).entries
      = weight entryWeight s.map.entries := weight_kerase (w := entryWeight) hkey
  intro owed
  simp only [Exact] at hs
  refine ⟨by omega, s, rfl, _, rfl, ?_, ?_, rfl⟩
  · simp only [Exact]
    omega
  · simp only
    omega

/-- Erasing an expired entry releases what the shard gives up. -/
theorem eraseExpired (hs : Exact s) {key : Bytes} {entry : Entry}
    (hkey : s.map.lookup key = some entry) :
    Keeps setup i (eraseExpired i key entry) s fun _ s' => s'.map = s.map.erase key := by
  refine (eraseEntryLocked hs hkey).bind fun _ s' hs' hmap owed => ?_
  exact ⟨s', rfl, hs', rfl, hmap⟩

/-- The look-up keeps the balance, and what it finds is in the shard. -/
theorem findLive (hs : Exact s) (key : Bytes) (now : TimePoint) :
    Keeps setup i (findLive i key now) s fun it s' => ∀ x ∈ it, s'.map.lookup key = some x := by
  refine look ?_
  split
  · exact .done hs (fun x hx => by cases hx)
  · next entry hkey =>
    split_ifs
    · exact (eraseExpired hs hkey).bind fun _ s' hs' _ => .done hs' (fun x hx => by cases hx)
    · refine .done hs fun x hx => ?_
      obtain rfl := Option.some.inj hx
      exact hkey

/-- An entry that is changed but for its value. -/
theorem updateEntry (hs : Exact s) {key : Bytes} {x y : Entry} (hkey : s.map.lookup key = some x)
    (hvalue : y.value = x.value) : Keeps setup i (updateEntry i key y) s fun _ _ => True := by
  have hweight : entryWeight key x + weight entryWeight (s.map.erase key).entries
      = weight entryWeight s.map.entries := weight_kerase hkey
  have hsame : entryWeight key y = entryWeight key x := by rw [entryWeight, entryWeight, hvalue]
  refine (modify ?_ rfl).weaken fun _ _ _ => trivial
  simp only [Exact, StorageEngine.weight_insert] at hs ⊢
  omega

/-- What an entry grows by is reserved before it is stored, what it shrinks by is released after. -/
theorem storeEntry (hs : Exact s) (key value : Bytes) (expiry : Option TimePoint) (now : TimePoint) :
    Keeps setup i (storeEntry i key value expiry now) s fun _ _ => True := by
  have hweight := lookup_add_weight_erase s key
  refine look ?_
  simp only
  generalize ((s.map.lookup key).map fun x => entryMemory key x.value).getD 0 = oldMemory
    at hweight ⊢
  generalize ((s.map.lookup key).map fun x => x.version + 1).getD 1 = version
  simp only [Exact] at hs
  -- a thread that may use what the entry grows by stores it and gives back what it shrinks by
  have hstore : ∀ owed avail,
      avail = owed + s.memoryBytes + (entryMemory key value - oldMemory) →
      (do
        Script.modify i fun s =>
          { s with
            map := s.map.insert key ⟨value, expiry, version, now⟩
            memoryBytes := s.memoryBytes - oldMemory + entryMemory key value }
        Script.releaseMemory (oldMemory - entryMemory key value)
        return WriteCode.ok : Script WriteCode).wp (discipline setup)
        (fun _ lk avail => ∃ s', lk = some (i, s') ∧ Exact s' ∧ avail = owed + s'.memoryBytes ∧ True)
        (some (i, s)) avail := by
    intro owed avail havail
    refine ⟨s, rfl, by omega, _, rfl, ?_, ?_, trivial⟩
    · simp only [Exact, StorageEngine.weight_insert, entryWeight]
      omega
    · simp only
      omega
  intro owed
  split_ifs with hgrow
  · refine ⟨hstore owed _ rfl, s, rfl, hs, rfl, trivial⟩
  · exact hstore owed _ (by omega)

/-- The scan of some entries of a shard. -/
theorem scanEntries (now : TimePoint) {l : List (Σ _ : Bytes, Entry)} (hl : l.NodupKeys)
    (hfind : ∀ p ∈ l, s.map.lookup p.1 = some p.2) (hs : Exact s) (kept : List (Σ _ : Bytes, Entry)) :
    Keeps setup i (loop (scanEntry now i) l kept) s fun _ _ => True := by
  induction l generalizing s kept with
  | nil => exact .done hs trivial
  | cons p l ih =>
    obtain ⟨key, entry⟩ := p
    obtain ⟨hkey, hl⟩ := List.nodupKeys_cons.mp hl
    have hfound := hfind ⟨key, entry⟩ List.mem_cons_self
    -- an entry that is erased is none of the others
    have hround : Keeps setup i (scanEntry now i kept ⟨key, entry⟩) s
        fun _ s' => ∀ q ∈ l, s'.map.lookup q.1 = some q.2 := by
      rw [scanEntry]
      split_ifs
      · refine (eraseExpired hs hfound).bind fun _ s' hs' hmap => .done hs' fun q hq => ?_
        have hmem : q.1 ∈ l.keys := List.mem_keys_of_mem hq
        have hne : q.1 ≠ key := by
          rintro rfl
          exact hkey hmem
        rw [hmap, AList.lookup_erase_ne hne]
        exact hfind q (List.mem_cons_of_mem _ hq)
      · exact .done hs fun q hq => hfind q (List.mem_cons_of_mem _ hq)
    exact hround.bind fun kept s' hs' hothers => ih hl hothers hs' kept

/-- The sampling loop keeps the balance, round by round. -/
theorem activeExpireLoop (now : TimePoint) (left pos sampled count : ℕ) (hs : Exact s) :
    Keeps setup i (activeExpireLoop now i left pos sampled count) s fun _ _ => True := by
  induction left generalizing s pos sampled count with
  | zero => exact .done hs trivial
  | succ left ih =>
    refine look ?_
    split
    · exact .done hs trivial
    · next key entry hget =>
      have hfound : s.map.lookup key = some entry :=
        AList.mem_lookup_iff.mpr (List.mem_of_getElem? hget)
      split_ifs
      · exact (eraseEntryLocked hs hfound).bind fun _ s' hs' _ => .look (ih _ _ _ hs')
      · exact .look (ih _ _ _ hs)

end Keeps

/-- Outside the mutexes: a thread that owes `owed` owes `left` in the end. -/
def Owes (setup : StorageSetup) (p : Script α) (owed : ℕ) (left : α → ℕ) : Prop :=
  p.wp (discipline setup) (fun r lk avail => lk = none ∧ avail = left r) none owed

namespace Owes

variable {owed : ℕ} {left : α → ℕ}

/-- A result without a step. -/
theorem done {a : α} : Owes setup (pure a) owed fun _ => owed := ⟨rfl, rfl⟩

/-- One script after the other: the second owes what the first leaves. -/
theorem bind {f : α → Script β} {left' : β → ℕ} (h : Owes setup p owed left)
    (hf : ∀ r, Owes setup (f r) (left r) left') : Owes setup (p >>= f) owed left' := by
  rw [Owes, Prog.wp_bind]
  refine Prog.wp_mono h ?_
  rintro r lk avail ⟨rfl, rfl⟩
  exact hf r

/-- A function of the result. -/
theorem map {f : α → β} (h : Owes setup p owed fun _ => owed) :
    Owes setup (p >>= fun a => pure (f a)) owed fun _ => owed :=
  h.bind fun _ => .done

/-- What is done inside a mutex. -/
theorem withLock (hi : i < setup.shardCount)
    (h : ∀ s, Exact s → Keeps setup i p s fun _ _ => True) :
    Owes setup (withLock i p) owed fun _ => owed := by
  refine ⟨rfl, Finset.mem_range.mpr hi, fun s hs => ?_⟩
  rw [Prog.wp_bind]
  refine Prog.wp_mono (h s hs owed) ?_
  rintro r lk avail ⟨s', rfl, hs', rfl, -⟩
  exact ⟨s', rfl, hs', Nat.le_add_left _ _, rfl, Nat.add_sub_cancel _ _⟩

/-- What the operations on one key do behind their lookup. -/
theorem afterFindLive {key : Bytes} {now : TimePoint} {f : Option Entry → Script β}
    (hf : ∀ it s, Exact s → (∀ x ∈ it, s.map.lookup key = some x) →
      Keeps setup (setup.shardForKey key) (f it) s fun _ _ => True) :
    Owes setup (Script.withLock (setup.shardForKey key)
      (findLive (setup.shardForKey key) key now >>= f)) owed fun _ => owed :=
  .withLock (setup.shardForKey_lt key) fun _ hs => (Keeps.findLive hs key now).bind hf

/-- A loop keeps what its body does. -/
theorem loop {f : β → α → Script β} {g : β → ℕ} {l : List α}
    (hf : ∀ b, ∀ a ∈ l, Owes setup (f b a) (g b) g) (b : β) :
    Owes setup (loop f l b) (g b) g := by
  induction l generalizing b with
  | nil => exact ⟨rfl, rfl⟩
  | cons a l ih =>
    exact (hf b a List.mem_cons_self).bind fun b' =>
      ih (fun b a ha => hf b a (List.mem_cons_of_mem _ ha)) b'

variable (now : TimePoint)

/-- `set` owes nothing in the end. -/
theorem set (key value : Bytes) (ttl : Option ℤ) (condition : SetCondition) :
    Owes setup (set setup key value ttl condition now) owed fun _ => owed := by
  rw [Script.set]
  split_ifs
  · exact .done
  · exact .done
  · refine afterFindLive fun it s hs _ => .look ?_
    simp only
    split_ifs
    · exact .done hs trivial
    · exact (Keeps.storeEntry hs key value _ now).bind fun _ s' hs' _ => .done hs' trivial

/-- `incr_by` owes nothing in the end. -/
theorem incrBy (key : Bytes) (delta : ℤ) :
    Owes setup (incrBy setup key delta now) owed fun _ => owed := by
  rw [Script.incrBy]
  split_ifs
  · exact .done
  · refine afterFindLive fun it s hs _ => ?_
    split
    · exact .done hs trivial
    · simp only
      split_ifs
      · exact .done hs trivial
      · exact .done hs trivial
      · refine (Keeps.storeEntry hs key _ none now).bind fun code s' hs' _ => ?_
        cases code <;> exact .done hs' trivial

/-- `append` owes nothing in the end. -/
theorem append (key suffix : Bytes) : Owes setup (append setup key suffix now) owed fun _ => owed := by
  rw [Script.append]
  split_ifs
  · exact .done
  · refine afterFindLive fun it s hs _ => ?_
    simp only
    split_ifs
    · exact .done hs trivial
    · refine (Keeps.storeEntry hs key _ none now).bind fun code s' hs' _ => ?_
      cases code <;> exact .done hs' trivial

/-- `del` of one key owes nothing in the end. -/
theorem del (key : Bytes) : Owes setup (del setup key now) owed fun _ => owed := by
  refine afterFindLive fun it s hs hfound => ?_
  cases it with
  | none => exact .done hs trivial
  | some entry =>
    exact (Keeps.eraseEntryLocked hs (hfound entry rfl)).bind fun _ s' hs' _ => .done hs' trivial

/-- `expire_at` owes nothing in the end. -/
theorem expireAt (key : Bytes) (expireAtTp : TimePoint) :
    Owes setup (expireAt setup key expireAtTp now) owed fun _ => owed := by
  refine afterFindLive fun it s hs hfound => ?_
  cases it with
  | none => exact .done hs trivial
  | some entry =>
    simp only
    split_ifs
    · exact (Keeps.eraseExpired hs (hfound entry rfl)).bind fun _ s' hs' _ => .done hs' trivial
    · refine .bind (.updateEntry hs (hfound entry rfl) ?_) fun _ s' hs' _ => .done hs' trivial
      rfl

/-- `expire` owes nothing in the end. -/
theorem expire (key : Bytes) (ttl : ℤ) : Owes setup (expire setup key ttl now) owed fun _ => owed := by
  rw [Script.expire]
  split_ifs
  · exact (del now key).map
  · exact expireAt now key _

/-- `persist` owes nothing in the end. -/
theorem persist (key : Bytes) : Owes setup (persist setup key now) owed fun _ => owed := by
  refine afterFindLive fun it s hs hfound => ?_
  cases it with
  | none => exact .done hs trivial
  | some entry =>
    simp only
    split_ifs
    · exact .done hs trivial
    · refine .bind (.updateEntry hs (hfound entry rfl) ?_) fun _ s' hs' _ => .done hs' trivial
      rfl

/-- `get` owes nothing in the end. -/
theorem get (key : Bytes) : Owes setup (get setup key now) owed fun _ => owed := by
  refine afterFindLive fun it s hs hfound => ?_
  cases it with
  | none => exact .done hs trivial
  | some entry =>
    refine .bind (.updateEntry hs (hfound entry rfl) ?_) fun _ s' hs' _ => .done hs' trivial
    rfl

/-- `ttl` owes nothing in the end. -/
theorem ttl (key : Bytes) : Owes setup (ttl setup key now) owed fun _ => owed := by
  refine afterFindLive fun it s hs _ => ?_
  cases it with
  | none => exact .done hs trivial
  | some entry =>
    simp only
    split <;> exact .done hs trivial

/-- A walk over the shards owes nothing in the end. -/
theorem scan : Owes setup (scan setup now) owed fun _ => owed := by
  refine loop (g := fun _ => owed) (fun kept i hi => ?_) []
  refine .withLock (List.mem_range.mp hi) fun s hs => .look ?_
  exact .scanEntries now s.map.nodupKeys (fun p hp => AList.mem_lookup_iff.mpr hp) hs kept

/-- What `flushdb` has cleared is what it has yet to release. -/
theorem flushdb : Owes setup (flushdb setup) 0 fun _ => 0 := by
  have hloop : Owes setup (Script.loop flushShard (List.range setup.shardCount) 0) 0 fun r => r := by
    refine loop (g := fun r => r) (fun released i hi => ?_) 0
    refine ⟨rfl, Finset.mem_range.mpr (List.mem_range.mp hi), fun s hs => ?_⟩
    exact ⟨s, rfl, s, rfl, _, rfl, rfl, Nat.zero_le _, rfl, rfl⟩
  exact hloop.bind fun released => ⟨le_rfl, rfl, Nat.sub_self _⟩

/-- `active_expire` owes nothing in the end. -/
theorem activeExpire (samplePerShard : ℕ) :
    Owes setup (activeExpire setup samplePerShard now) owed fun _ => owed := by
  have hloop : Owes setup (Script.loop (activeExpireShard now samplePerShard)
      (List.range setup.shardCount) 0) owed fun _ => owed := by
    refine loop (g := fun _ => owed) (fun count i hi => ?_) 0
    refine .withLock (List.mem_range.mp hi) fun s hs => .look ?_
    simp only
    split_ifs
    · exact (Keeps.modify hs rfl).bind fun _ s' hs' _ => .done hs' trivial
    · refine (Keeps.activeExpireLoop now _ _ _ _ hs).bind fun r s' hs' _ => ?_
      exact (Keeps.modify hs' rfl).bind fun _ s'' hs'' _ => .done hs'' trivial
  exact hloop.bind fun _ => ⟨rfl, rfl⟩

/-- **Every call is sound**: it gives back exactly what it may use. -/
theorem call (c : Call) : (c.script setup now).Sound (discipline setup) := by
  suffices howes : Owes setup (c.script setup now) 0 fun _ => 0 from howes
  cases c with
  | op op =>
    cases op with
    | set key value ttl condition => exact (set now key value ttl condition).map
    | get key => exact (get now key).map
    | del keys => exact (loop (g := fun _ => 0) (fun _ key _ => (del now key).map) 0).map
    | exist keys => exact (loop (g := fun _ => 0) (fun _ key _ => (get now key).map) 0).map
    | mget keys => exact (loop (g := fun _ => 0) (fun _ key _ => (get now key).map) []).map
    | incrBy key delta => exact (incrBy now key delta).map
    | append key suffix => exact (append now key suffix).map
    | strlen key => exact ((get now key).map).map
    | expire key ttl => exact (expire now key ttl).map
    | expireAt key expireAtTp => exact (expireAt now key expireAtTp).map
    | ttl key => exact (ttl now key).map
    | persist key => exact (persist now key).map
    | dbsize => exact ((scan now).map).map
    | expiresCount => exact ((scan now).map).map
    | flushdb => exact flushdb.bind fun _ => .done
    | snapshot => exact ((scan now).map).map
  | activeExpire samplePerShard => exact (activeExpire now samplePerShard).map

end Owes

end Script

end VeloxDb
