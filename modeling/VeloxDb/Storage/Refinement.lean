import Mathlib.Data.Set.Card
import VeloxDb.Storage.Operations

/-!
# The engine refines a plain map with deadlines

The map has no shards, no versions and no memory: a key is absent as soon as its deadline is at or
before the reading of the clock, and nothing is ever removed for that. `Keyspace.apply` says what
each operation returns on it. Without a memory limit, an engine that shows the same keys, values and
deadlines (`Shows`) returns the same and shows the same afterwards, for every number of shards and
every hash, and it does not matter when expired entries are erased.
-/

namespace VeloxDb

open Decimal Util

/-- The operations of `StorageEngine`, but for the active expiration. -/
inductive Op
  | set (key value : Bytes) (ttl : Option ℤ) (condition : SetCondition)
  | get (key : Bytes)
  | del (keys : List Bytes)
  | exist (keys : List Bytes)
  | mget (keys : List Bytes)
  | incrBy (key : Bytes) (delta : ℤ)
  | append (key suffix : Bytes)
  | strlen (key : Bytes)
  | expire (key : Bytes) (ttl : ℤ)
  | expireAt (key : Bytes) (expireAtTp : TimePoint)
  | ttl (key : Bytes)
  | persist (key : Bytes)
  | dbsize
  | expiresCount
  | flushdb
  | snapshot

/-- What an operation returns; the entries of a snapshot come in no particular order. -/
inductive Reply
  | write (result : WriteResult)
  | value (value : Option Bytes)
  | values (values : List (Option Bytes))
  | count (n : ℕ)
  | changed (changed : Bool)
  | ttl (result : TtlResult)
  | done
  | entries (entries : Set SnapshotEntry)

/-- An operation on the engine. -/
def StorageEngine.apply (e : StorageEngine) (now : TimePoint) : Op → Reply × StorageEngine
  | .set key value ttl condition => (e.set key value ttl condition now).map .write id
  | .get key => (e.get key now).map .value id
  | .del keys => (e.delAll keys now).map .count id
  | .exist keys => (e.existsCount keys now).map .count id
  | .mget keys => (e.mget keys now).map .values id
  | .incrBy key delta => (e.incrBy key delta now).map .write id
  | .append key suffix => (e.append key suffix now).map .write id
  | .strlen key => (e.strlen key now).map .count id
  | .expire key ttl => (e.expire key ttl now).map .changed id
  | .expireAt key expireAtTp => (e.expireAt key expireAtTp now).map .changed id
  | .ttl key => (e.ttl key now).map .ttl id
  | .persist key => (e.persist key now).map .changed id
  | .dbsize => (e.dbsize now).map .count id
  | .expiresCount => (e.expiresCount now).map .count id
  | .flushdb => (.done, e.flushdb)
  | .snapshot => (e.snapshot now).map (fun entries => .entries { x | x ∈ entries }) id

/-! ## The map -/

namespace Keyspace

variable (limits : ProtocolConfig) (K : Keyspace) (now : TimePoint)

/-- `set` on the abstract store. -/
def set (key value : Bytes) (ttl : Option ℤ) (condition : SetCondition) : WriteResult × Keyspace :=
  if limits.maxKeySize < key.length then ({ code := .keyTooLarge }, K)
  else if limits.maxValueSize < value.length then ({ code := .valueTooLarge }, K)
  else if (condition = .nx ∧ K.visible now key ≠ none) ∨
      (condition = .xx ∧ K.visible now key = none) then ({ code := .notSet }, K)
  else ({ code := .ok }, Function.update K key (some ⟨value, ttl.map (addMillis now)⟩))

/-- `del` of one key on the abstract store. -/
def del (key : Bytes) : ℕ × Keyspace :=
  (if K.visible now key = none then 0 else 1, Function.update K key none)

/-- `del` on the abstract store, key by key. -/
def delAll : List Bytes → Keyspace → ℕ × Keyspace
  | [], K => (0, K)
  | key :: keys, K =>
    let (rest, K') := delAll keys (K.del now key).2
    ((K.del now key).1 + rest, K')

/-- `incr_by` on the abstract store. -/
def incrBy (key : Bytes) (delta : ℤ) : WriteResult × Keyspace :=
  if limits.maxKeySize < key.length then ({ code := .keyTooLarge }, K)
  else
    match currentInteger ((K.visible now key).map Item.value) with
    | none => ({ code := .invalidInteger }, K)
    | some current =>
      if overflows current delta then ({ code := .overflow }, K)
      else if limits.maxValueSize < (printInt (current + delta)).length then
        ({ code := .valueTooLarge }, K)
      else ({ code := .ok, integer := current + delta },
        Function.update K key (some ⟨printInt (current + delta), none⟩))

/-- `append` on the abstract store. -/
def append (key suffix : Bytes) : WriteResult × Keyspace :=
  let next := ((K.visible now key).map Item.value).getD [] ++ suffix
  if limits.maxKeySize < key.length then ({ code := .keyTooLarge }, K)
  else if limits.maxValueSize < next.length then ({ code := .valueTooLarge }, K)
  else ({ code := .ok, integer := next.length }, Function.update K key (some ⟨next, none⟩))

/-- `expire_at` on the abstract store. -/
def expireAt (key : Bytes) (deadline : TimePoint) : Bool × Keyspace :=
  match K.visible now key with
  | none => (false, K)
  | some x => (true, Function.update K key
      (if deadline ≤ now then none else some { x with expiry := some deadline }))

/-- A time to live that is not positive deletes. -/
def expire (key : Bytes) (ttl : ℤ) : Bool × Keyspace :=
  if ttl ≤ 0 then ((K.visible now key).isSome, Function.update K key none)
  else K.expireAt now key (addMillis now ttl)

/-- `ttl` on the abstract store. -/
def ttl (key : Bytes) : TtlResult :=
  match K.visible now key with
  | none => .missing
  | some x =>
    match x.expiry with
    | none => .noExpiry
    | some deadline => .hasExpiry (max 0 (millisBetween deadline now))

/-- `persist` on the abstract store. -/
def persist (key : Bytes) : Bool × Keyspace :=
  match K.visible now key with
  | none => (false, K)
  | some x => (x.expiry.isSome, Function.update K key (some { x with expiry := none }))

/-- The number of visible keys that satisfy a condition on their item. -/
noncomputable def count (p : Item → Prop) : ℕ := Set.ncard { k | ∃ x, K.visible now k = some x ∧ p x }

/-- The visible entries, with their deadlines in milliseconds. -/
def entries : Set SnapshotEntry :=
  { s | ∃ x, K.visible now s.key = some x ∧ s.value = x.value ∧
    s.expireAtUnixMs = x.expiry.map unixMs }

/-- An operation on the map. -/
noncomputable def apply : Op → Reply × Keyspace
  | .set key value ttl condition => (K.set limits now key value ttl condition).map .write id
  | .get key => (.value ((K.visible now key).map Item.value), K)
  | .del keys => (delAll now keys K).map .count id
  | .exist keys => (.count (keys.countP fun key => (K.visible now key).isSome), K)
  | .mget keys => (.values (keys.map fun key => (K.visible now key).map Item.value), K)
  | .incrBy key delta => (K.incrBy limits now key delta).map .write id
  | .append key suffix => (K.append limits now key suffix).map .write id
  | .strlen key => (.count (((K.visible now key).map fun x => x.value.length).getD 0), K)
  | .expire key ttl => (K.expire now key ttl).map .changed id
  | .expireAt key deadline => (K.expireAt now key deadline).map .changed id
  | .ttl key => (.ttl (K.ttl now key), K)
  | .persist key => (K.persist now key).map .changed id
  | .dbsize => (.count (K.count now fun _ => True), K)
  | .expiresCount => (.count (K.count now fun x => x.expiry.isSome = true), K)
  | .flushdb => (.done, fun _ => none)
  | .snapshot => (.entries (K.entries now), K)

end Keyspace

/-! ## The relation -/

namespace Keyspace

variable {K K' : Keyspace} {now : TimePoint}

/-- Maps that show the same still do after the same change. -/
theorem visible_update_congr (h : K.visible now = K'.visible now) (k : Bytes) (v : Option Item) :
    Keyspace.visible (Function.update K k v) now = Keyspace.visible (Function.update K' k v) now := by
  funext j
  by_cases hjk : j = k
  · subst hjk
    rw [visible_update_self, visible_update_self]
  · rw [visible_update_of_ne hjk, visible_update_of_ne hjk, h]

end Keyspace

/-- The engine has no memory limit and shows what the map shows. -/
structure Shows (now : TimePoint) (limits : ProtocolConfig) (e : StorageEngine) (K : Keyspace) :
    Prop where
  wf : e.WF
  limits : e.setup.limits = limits
  unlimited : e.maxMemoryBytes = 0
  visible : e.keyspace.visible now = K.visible now

/-- An operation has returned the same on both, and both show the same afterwards. -/
def Matches {α : Type} (now : TimePoint) (limits : ProtocolConfig) (r : α × StorageEngine)
    (r' : α × Keyspace) : Prop :=
  r.1 = r'.1 ∧ Shows now limits r.2 r'.2

/-- Answers that match still do under a function. -/
theorem Matches.map {α : Type} {now : TimePoint} {limits : ProtocolConfig} {r : α × StorageEngine}
    {r' : α × Keyspace} (h : Matches now limits r r') (f : α → Reply) :
    Matches now limits (r.map f id) (r'.map f id) :=
  ⟨congrArg f h.1, h.2⟩

namespace Shows

variable {now t : TimePoint} {limits : ProtocolConfig} {e e' : StorageEngine} {K : Keyspace} {k : Bytes}

/-- An engine that shows a map shows it at every later time. -/
theorem later (h : Shows now limits e K) (hle : now ≤ t) : Shows t limits e K := by
  refine ⟨h.wf, h.limits, h.unlimited, ?_⟩
  rw [← Keyspace.visible_visible hle, h.visible, Keyspace.visible_visible hle]

/-- Erasing what has expired does not show. -/
theorem reclaimed (h : Shows now limits e K) (hr : StorageEngine.Reclaimed now e e') :
    Shows now limits e' K := by
  refine ⟨hr.wf, by rw [hr.setup]; exact h.limits, ?_, ?_⟩
  · rw [StorageEngine.maxMemoryBytes, hr.setup]
    exact h.unlimited
  · rw [hr.reclaims.visible_eq le_rfl, h.visible]

/-- The same change to one key. -/
theorem update (h : Shows now limits e K) {v : Option Item}
    (hb : StorageEngine.Becomes e e' (Function.update e.keyspace k v)) :
    Shows now limits e' (Function.update K k v) := by
  refine ⟨hb.wf, by rw [hb.setup]; exact h.limits, ?_, ?_⟩
  · rw [StorageEngine.maxMemoryBytes, hb.setup]
    exact h.unlimited
  · rw [hb.keyspace]
    exact Keyspace.visible_update_congr h.visible k v

/-- The engine and the abstract store show the same under every key. -/
theorem visible_eq (h : Shows now limits e K) (k : Bytes) :
    e.keyspace.visible now k = K.visible now k := congrFun h.visible k

/-- Without a limit everything fits. -/
theorem fits (h : Shows now limits e K) (k value : Bytes) : e.Fits k value := .inl h.unlimited

/-- A key is valid to the engine as to the abstract store. -/
theorem keyValid_iff (h : Shows now limits e K) :
    e.setup.keyValid k = true ↔ ¬ limits.maxKeySize < k.length := by
  rw [StorageSetup.keyValid, h.limits, decide_eq_true_eq, not_lt]

/-- A value is valid to the engine as to the abstract store. -/
theorem valueValid_iff (h : Shows now limits e K) {v : Bytes} :
    e.setup.valueValid v = true ↔ ¬ limits.maxValueSize < v.length := by
  rw [StorageSetup.valueValid, h.limits, decide_eq_true_eq, not_lt]

/-- A key that is too long is not valid. -/
theorem keyValid_false (h : Shows now limits e K) (hlong : limits.maxKeySize < k.length) :
    e.setup.keyValid k = false :=
  Bool.eq_false_iff.mpr fun hk => h.keyValid_iff.mp hk hlong

/-- A value that is too long is not valid. -/
theorem valueValid_false (h : Shows now limits e K) {v : Bytes}
    (hlong : limits.maxValueSize < v.length) : e.setup.valueValid v = false :=
  Bool.eq_false_iff.mpr fun hv => h.valueValid_iff.mp hv hlong

/-! ## Writes -/

/-- `set` refines its abstract form. -/
theorem set (h : Shows now limits e K) (k v : Bytes) (ttl : Option ℤ) (c : SetCondition) :
    Matches now limits (e.set k v ttl c now) (K.set limits now k v ttl c) := by
  have hstate : ¬ (c.Allows (e.keyspace.visible now k) ∧ e.Admits k v) →
      Shows now limits (e.set k v ttl c now).2 K := fun hn =>
    h.reclaimed (StorageEngine.set_of_refused h.wf ttl hn).2
  rw [Keyspace.set]
  split_ifs with hkey hvalue hcond
  · have hk := h.keyValid_false hkey
    refine ⟨?_, hstate fun hn => ?_⟩
    · simp [StorageEngine.set, hk]
    · rw [hn.2.keyValid] at hk
      cases hk
  · have hk := h.keyValid_iff.mpr hkey
    have hv := h.valueValid_false hvalue
    refine ⟨?_, hstate fun hn => ?_⟩
    · simp [StorageEngine.set, hk, hv]
    · rw [hn.2.valueValid] at hv
      cases hv
  · have hk := h.keyValid_iff.mpr hkey
    have hv := h.valueValid_iff.mpr hvalue
    rw [← h.visible_eq] at hcond
    refine ⟨?_, hstate fun hn => ?_⟩
    · simp only [StorageEngine.set, hk, hv, Bool.not_true, Bool.false_eq_true, if_false,
        StorageEngine.eraseIfExpiredLocked_eq, StorageEngine.find_isSome_findLive h.wf]
      rw [if_pos]
      rcases hcond with ⟨rfl, hne⟩ | ⟨rfl, heq⟩
      · exact .inl ⟨rfl, Option.isSome_iff_ne_none.mpr hne⟩
      · exact .inr ⟨rfl, by simp [heq]⟩
    · rcases hcond with ⟨rfl, hne⟩ | ⟨rfl, heq⟩
      · exact hne (hn.1.1 rfl)
      · exact hn.1.2 rfl heq
  · rw [← h.visible_eq] at hcond
    have hallows : c.Allows (e.keyspace.visible now k) := by
      constructor
      · rintro rfl
        by_contra hne
        exact hcond (.inl ⟨rfl, hne⟩)
      · rintro rfl heq
        exact hcond (.inr ⟨rfl, heq⟩)
    obtain ⟨e', hset, hb⟩ := StorageEngine.set_of_admits h.wf ttl hallows
      ⟨h.keyValid_iff.mpr hkey, h.valueValid_iff.mpr hvalue, h.fits k v⟩
    rw [hset]
    exact ⟨rfl, h.update hb⟩

/-- `incr_by` refines its abstract form. -/
theorem incrBy (h : Shows now limits e K) (k : Bytes) (delta : ℤ) :
    Matches now limits (e.incrBy k delta now) (K.incrBy limits now k delta) := by
  have hstate : (∀ n, StorageEngine.nextInteger delta (e.keyspace.visible now k) = some n →
      ¬ e.Admits k (printInt n)) → Shows now limits (e.incrBy k delta now).2 K := fun hn =>
    h.reclaimed (StorageEngine.incrBy_of_refused h.wf hn).2
  have hvalue := StorageEngine.value_findLive h.wf k now
  rw [h.visible_eq] at hvalue
  rw [Keyspace.incrBy]
  split_ifs with hkey
  · have hk := h.keyValid_false hkey
    refine ⟨by simp [StorageEngine.incrBy, hk], hstate fun n _ ha => ?_⟩
    rw [ha.keyValid] at hk
    cases hk
  have hk := h.keyValid_iff.mpr hkey
  split
  · next hcurrent =>
    refine ⟨?_, hstate fun n hn _ => ?_⟩
    · simp [StorageEngine.incrBy, hk, hvalue, hcurrent]
    · rw [StorageEngine.nextInteger, h.visible_eq, hcurrent] at hn
      cases hn
  · next current hcurrent =>
    split_ifs with hover hlong
    · refine ⟨?_, hstate fun n hn _ => ?_⟩
      · simp [StorageEngine.incrBy, hk, hvalue, hcurrent, hover]
      · rw [StorageEngine.nextInteger, h.visible_eq, hcurrent, Option.bind_some, if_pos hover] at hn
        cases hn
    · have hlive := h.reclaimed (StorageEngine.reclaimed_findLive h.wf k now)
      have hv := hlive.valueValid_false hlong
      refine ⟨?_, hstate fun n hn ha => ?_⟩
      · simp [StorageEngine.incrBy, hk, hvalue, hcurrent, hover, hv]
      · rw [StorageEngine.nextInteger, h.visible_eq, hcurrent, Option.bind_some, if_neg hover,
          Option.some.injEq] at hn
        subst hn
        exact h.valueValid_iff.mp ha.valueValid hlong
    · have hn : StorageEngine.nextInteger delta (e.keyspace.visible now k) = some (current + delta) := by
        rw [StorageEngine.nextInteger, h.visible_eq, hcurrent, Option.bind_some, if_neg hover]
      obtain ⟨e', hincr, hb⟩ := StorageEngine.incrBy_of_admits h.wf hn
        ⟨hk, h.valueValid_iff.mpr hlong, h.fits k _⟩
      rw [hincr]
      exact ⟨rfl, h.update hb⟩

/-- `append` refines its abstract form. -/
theorem append (h : Shows now limits e K) (k suffix : Bytes) :
    Matches now limits (e.append k suffix now) (K.append limits now k suffix) := by
  have hstate : ¬ e.Admits k (StorageEngine.appended suffix (e.keyspace.visible now k)) →
      Shows now limits (e.append k suffix now).2 K := fun hn =>
    h.reclaimed (StorageEngine.append_of_refused h.wf hn).2
  have hvalue := StorageEngine.value_findLive h.wf k now
  rw [h.visible_eq] at hvalue
  have hnext : StorageEngine.appended suffix (e.keyspace.visible now k)
      = ((K.visible now k).map Item.value).getD [] ++ suffix := by
    rw [h.visible_eq]
    rfl
  rw [Keyspace.append]
  split_ifs with hkey hlong
  · have hk := h.keyValid_false hkey
    refine ⟨by simp [StorageEngine.append, hk], hstate fun ha => ?_⟩
    rw [ha.keyValid] at hk
    cases hk
  · have hk := h.keyValid_iff.mpr hkey
    have hlive := h.reclaimed (StorageEngine.reclaimed_findLive h.wf k now)
    have hv := hlive.valueValid_false hlong
    refine ⟨by simp [StorageEngine.append, hk, hvalue, hv], hstate fun ha => ?_⟩
    rw [hnext] at ha
    exact h.valueValid_iff.mp ha.valueValid hlong
  · obtain ⟨e', happend, hb⟩ := StorageEngine.append_of_admits h.wf hnext
      ⟨h.keyValid_iff.mpr hkey, h.valueValid_iff.mpr hlong, h.fits k _⟩
    rw [happend]
    exact ⟨rfl, h.update hb⟩

/-- `del` of one key refines its abstract form. -/
theorem del (h : Shows now limits e K) (k : Bytes) :
    Matches now limits (e.del k now) (K.del now k) := by
  obtain ⟨e', hdel, hb⟩ := StorageEngine.del_spec h.wf k now
  rw [hdel, Keyspace.del, ← h.visible_eq]
  refine ⟨?_, h.update hb⟩
  cases e.keyspace.visible now k <;> rfl

/-- `del` refines its abstract form. -/
theorem delAll (h : Shows now limits e K) (keys : List Bytes) :
    Matches now limits (e.delAll keys now) (Keyspace.delAll now keys K) := by
  induction keys generalizing e K with
  | nil => exact ⟨rfl, h⟩
  | cons key keys ih =>
    obtain ⟨hcount, hshows⟩ := h.del key
    obtain ⟨hrest, hshows'⟩ := ih hshows
    rw [StorageEngine.delAll_cons]
    exact ⟨by rw [hcount, hrest, Keyspace.delAll], hshows'⟩

/-- `expire_at` refines its abstract form. -/
theorem expireAt (h : Shows now limits e K) (k : Bytes) (deadline : TimePoint) :
    Matches now limits (e.expireAt k deadline now) (K.expireAt now k deadline) := by
  obtain ⟨e', hexpire, hb⟩ := StorageEngine.expireAt_spec h.wf k deadline now
  rw [hexpire, Keyspace.expireAt, ← h.visible_eq]
  cases hv : e.keyspace.visible now k with
  | none =>
    rw [hv, StorageEngine.expiredAt, Option.map_none, ite_self] at hb
    refine ⟨rfl, h.reclaimed (hb.reclaimed ?_)⟩
    rw [← StorageEngine.reclaim_of_visible_none hv]
    exact Keyspace.reclaim_reclaims _ _ _
  | some x =>
    rw [hv, StorageEngine.expiredAt, Option.map_some] at hb
    exact ⟨rfl, h.update hb⟩

/-- `expire` refines its abstract form. -/
theorem expire (h : Shows now limits e K) (k : Bytes) (ttl : ℤ) :
    Matches now limits (e.expire k ttl now) (K.expire now k ttl) := by
  rw [Keyspace.expire]
  split_ifs with httl
  · obtain ⟨e', hexpire, hb⟩ := StorageEngine.expire_of_nonpos h.wf k httl now
    rw [hexpire, ← h.visible_eq]
    exact ⟨rfl, h.update hb⟩
  · rw [StorageEngine.expire_of_pos e k (by omega) now]
    exact h.expireAt k (addMillis now ttl)

/-- `persist` refines its abstract form. -/
theorem persist (h : Shows now limits e K) (k : Bytes) :
    Matches now limits (e.persist k now) (K.persist now k) := by
  obtain ⟨e', hpersist, hb⟩ := StorageEngine.persist_spec h.wf k now
  rw [hpersist, Keyspace.persist, ← h.visible_eq]
  cases hv : e.keyspace.visible now k with
  | none =>
    rw [hv, Option.map_none] at hb
    refine ⟨rfl, h.reclaimed (hb.reclaimed ?_)⟩
    rw [← StorageEngine.reclaim_of_visible_none hv]
    exact Keyspace.reclaim_reclaims _ _ _
  | some x =>
    rw [hv, Option.map_some] at hb
    exact ⟨rfl, h.update hb⟩

/-- `flushdb` leaves the empty store. -/
theorem flushdb (h : Shows now limits e K) : Shows now limits e.flushdb fun _ => none := by
  have hb := StorageEngine.flushdb_spec h.wf
  refine ⟨hb.wf, by rw [hb.setup]; exact h.limits, ?_, by rw [hb.keyspace]⟩
  rw [StorageEngine.maxMemoryBytes, hb.setup]
  exact h.unlimited

/-! ## Reads -/

/-- `get` reads the abstract store. -/
theorem get (h : Shows now limits e K) (k : Bytes) :
    Matches now limits (e.get k now) ((K.visible now k).map Item.value, K) := by
  obtain ⟨hvalue, hre⟩ := StorageEngine.get_spec h.wf k now
  rw [h.visible_eq] at hvalue
  exact ⟨hvalue, h.reclaimed hre⟩

/-- `exists_count` counts in the abstract store. -/
theorem existsCount (h : Shows now limits e K) (keys : List Bytes) :
    Matches now limits (e.existsCount keys now)
      (keys.countP fun key => (K.visible now key).isSome, K) := by
  have hloop : ∀ (keys : List Bytes) (n : ℕ) {e : StorageEngine}, Shows now limits e K →
      Matches now limits
        (keys.foldl (fun r key =>
          (if (r.2.get key now).1.isSome then r.1 + 1 else r.1, (r.2.get key now).2)) (n, e))
        (n + keys.countP (fun key => (K.visible now key).isSome), K) := by
    intro keys
    induction keys with
    | nil => exact fun n e h => ⟨rfl, h⟩
    | cons key keys ih =>
      intro n e h
      obtain ⟨hvalue, hshows⟩ := h.get key
      have hrest := ih (if (e.get key now).1.isSome then n + 1 else n) hshows
      rw [List.foldl_cons]
      refine ⟨hrest.1.trans ?_, hrest.2⟩
      simp only [hvalue, Option.isSome_map, List.countP_cons]
      split_ifs <;> omega
  have hall := hloop keys 0 h
  rw [Nat.zero_add] at hall
  exact hall

/-- `mget` reads the abstract store. -/
theorem mget (h : Shows now limits e K) (keys : List Bytes) :
    Matches now limits (e.mget keys now)
      (keys.map fun key => (K.visible now key).map Item.value, K) := by
  have hloop : ∀ (keys : List Bytes) (vs : List (Option Bytes)) {e : StorageEngine},
      Shows now limits e K → Matches now limits
        (keys.foldl (fun r key => (r.1 ++ [(r.2.get key now).1], (r.2.get key now).2)) (vs, e))
        (vs ++ keys.map (fun key => (K.visible now key).map Item.value), K) := by
    intro keys
    induction keys with
    | nil => exact fun vs e h => ⟨(List.append_nil vs).symm, h⟩
    | cons key keys ih =>
      intro vs e h
      obtain ⟨hvalue, hshows⟩ := h.get key
      have hrest := ih (vs ++ [(e.get key now).1]) hshows
      rw [List.foldl_cons]
      refine ⟨hrest.1.trans ?_, hrest.2⟩
      rw [hvalue, List.append_assoc, List.singleton_append, List.map_cons]
  exact hloop keys [] h

/-- `strlen` measures in the abstract store. -/
theorem strlen (h : Shows now limits e K) (k : Bytes) :
    Matches now limits (e.strlen k now)
      (((K.visible now k).map fun x => x.value.length).getD 0, K) := by
  obtain ⟨hlen, hre⟩ := StorageEngine.strlen_spec h.wf k now
  rw [h.visible_eq] at hlen
  exact ⟨hlen, h.reclaimed hre⟩

/-- `ttl` reads the abstract store. -/
theorem ttl (h : Shows now limits e K) (k : Bytes) :
    Matches now limits (e.ttl k now) (K.ttl now k, K) := by
  obtain ⟨httl, hre⟩ := StorageEngine.ttl_spec h.wf k now
  rw [h.visible_eq] at httl
  exact ⟨httl, h.reclaimed hre⟩

/-! ## Scans -/

/-- What a scan collects: the visible entries, each once. -/
theorem scan (h : Shows now limits e K) :
    Shows now limits (e.scan now).2 K ∧ (e.scan now).1.NodupKeys ∧
      ∀ k x, (∃ y, ⟨k, y⟩ ∈ (e.scan now).1 ∧ y.item = x) ↔ K.visible now k = some x := by
  refine ⟨h.reclaimed (StorageEngine.scan_reclaimed h.wf now), ?_⟩
  obtain ⟨e', hscan, -⟩ := StorageEngine.scan_spec h.wf now
  rw [hscan]
  refine ⟨h.wf.nodupKeys_entries.sublist List.filter_sublist, fun k x => ?_⟩
  rw [← h.visible_eq, Keyspace.visible_eq_some]
  simp only [List.mem_filter, h.wf.mem_entries, Bool.not_eq_true']
  constructor
  · rintro ⟨y, ⟨hy, hexp⟩, rfl⟩
    exact ⟨StorageEngine.keyspace_eq_some.mpr ⟨y, hy, rfl⟩, hexp⟩
  · rintro ⟨hx, hexp⟩
    obtain ⟨y, hy, rfl⟩ := StorageEngine.keyspace_eq_some.mp hx
    exact ⟨y, ⟨hy, hexp⟩, rfl⟩

/-- Counting the entries of a scan counts the keys. -/
theorem countP_scan (h : Shows now limits e K) (p : Item → Bool) :
    (e.scan now).1.countP (fun q => p q.2.item) = K.count now fun x => p x = true := by
  obtain ⟨-, hnodup, hmem⟩ := h.scan
  have hkeys : (((e.scan now).1.filter fun q => p q.2.item).map Sigma.fst).Nodup :=
    hnodup.sublist List.filter_sublist
  rw [List.countP_eq_length_filter, Keyspace.count, ← List.length_map (f := Sigma.fst),
    ← List.toFinset_card_of_nodup hkeys, ← Set.ncard_coe_finset]
  congr 1
  ext k
  simp only [List.coe_toFinset, Set.mem_ofPred_eq, List.mem_map, List.mem_filter]
  constructor
  · rintro ⟨⟨k', y⟩, ⟨hy, hp⟩, rfl⟩
    exact ⟨y.item, (hmem k' y.item).mp ⟨y, hy, rfl⟩, hp⟩
  · rintro ⟨x, hx, hp⟩
    obtain ⟨y, hy, rfl⟩ := (hmem k x).mpr hx
    exact ⟨⟨k, y⟩, ⟨hy, hp⟩, rfl⟩

/-- `dbsize` counts the keys of the abstract store. -/
theorem dbsize (h : Shows now limits e K) :
    Matches now limits (e.dbsize now) (K.count now fun _ => True, K) := by
  refine ⟨?_, h.scan.1⟩
  have hcount := h.countP_scan fun _ => true
  simp only [List.countP_true] at hcount
  exact hcount

/-- `expires_count` counts the deadlines of the abstract store. -/
theorem expiresCount (h : Shows now limits e K) :
    Matches now limits (e.expiresCount now) (K.count now fun x => x.expiry.isSome = true, K) :=
  ⟨h.countP_scan fun x => x.expiry.isSome, h.scan.1⟩

/-- `snapshot` lists the abstract store. -/
theorem snapshot (h : Shows now limits e K) :
    { s | s ∈ (e.snapshot now).1 } = K.entries now ∧ Shows now limits (e.snapshot now).2 K := by
  obtain ⟨hshows, -, hmem⟩ := h.scan
  refine ⟨?_, hshows⟩
  ext s
  simp only [StorageEngine.snapshot, Set.mem_ofPred_eq, List.mem_map, Keyspace.entries]
  constructor
  · rintro ⟨⟨k, y⟩, hy, rfl⟩
    exact ⟨y.item, (hmem k y.item).mp ⟨y, hy, rfl⟩, rfl, rfl⟩
  · rintro ⟨x, hx, hvalue, hexpiry⟩
    obtain ⟨y, hy, rfl⟩ := (hmem s.key x).mpr hx
    refine ⟨⟨s.key, y⟩, hy, ?_⟩
    obtain ⟨key, value, expireAtUnixMs⟩ := s
    cases hvalue
    cases hexpiry
    rfl

/-- `active_expire` cannot be seen. -/
theorem activeExpire (h : Shows now limits e K) (samplePerShard : ℕ) :
    Shows now limits (e.activeExpire samplePerShard now).2 K :=
  h.reclaimed (StorageEngine.activeExpire_reclaimed h.wf samplePerShard now)

/-- **Every operation of the engine is one of the map**: same reply, and the engine shows the map
behind it. -/
theorem apply (h : Shows now limits e K) (op : Op) :
    Matches now limits (e.apply now op) (K.apply limits now op) := by
  cases op with
  | set key value ttl condition => exact (h.set key value ttl condition).map .write
  | get key => exact (h.get key).map .value
  | del keys => exact (h.delAll keys).map .count
  | exist keys => exact (h.existsCount keys).map .count
  | mget keys => exact (h.mget keys).map .values
  | incrBy key delta => exact (h.incrBy key delta).map .write
  | append key suffix => exact (h.append key suffix).map .write
  | strlen key => exact (h.strlen key).map .count
  | expire key ttl => exact (h.expire key ttl).map .changed
  | expireAt key deadline => exact (h.expireAt key deadline).map .changed
  | ttl key => exact (h.ttl key).map .ttl
  | persist key => exact (h.persist key).map .changed
  | dbsize => exact h.dbsize.map .count
  | expiresCount => exact h.expiresCount.map .count
  | flushdb => exact ⟨rfl, h.flushdb⟩
  | snapshot => exact ⟨congrArg Reply.entries h.snapshot.1, h.snapshot.2⟩

end Shows

/-! ## Runs -/

/-- A call of the engine: an operation, or the active expiration that runs between them. -/
inductive Call
  | op (op : Op)
  | activeExpire (samplePerShard : ℕ)

/-- What the operations of a run return, each call with its reading of the clock. -/
def StorageEngine.replies : StorageEngine → List (TimePoint × Call) → List Reply
  | _, [] => []
  | e, (now, .op op) :: calls => (e.apply now op).1 :: replies (e.apply now op).2 calls
  | e, (now, .activeExpire samplePerShard) :: calls =>
    replies (e.activeExpire samplePerShard now).2 calls

/-- The operations of a run. -/
def operations (calls : List (TimePoint × Call)) : List (TimePoint × Op) :=
  calls.filterMap fun
    | (now, .op op) => some (now, op)
    | (_, .activeExpire _) => none

/-- The replies of the abstract store to a run. -/
noncomputable def Keyspace.replies (limits : ProtocolConfig) :
    Keyspace → List (TimePoint × Op) → List Reply
  | _, [] => []
  | K, (now, op) :: ops => (K.apply limits now op).1 :: replies limits (K.apply limits now op).2 ops

/-- No call reads the clock before an earlier one. -/
def ClockMonotone (calls : List (TimePoint × Call)) : Prop := calls.Pairwise fun a b => a.1 ≤ b.1

instance (calls : List (TimePoint × Call)) : Decidable (ClockMonotone calls) :=
  inferInstanceAs (Decidable (calls.Pairwise fun a b => a.1 ≤ b.1))

namespace Shows

variable {limits : ProtocolConfig}

/-- The run of an engine that shows the map now, all of whose readings are still to come. -/
theorem replies_eq {calls : List (TimePoint × Call)} {now : TimePoint} {e : StorageEngine}
    {K : Keyspace} (h : Shows now limits e K) (hlater : ∀ c ∈ calls, now ≤ c.1)
    (hclock : ClockMonotone calls) :
    e.replies calls = K.replies limits (operations calls) := by
  -- the relation is kept at the reading of the last call: what was hidden by then stays hidden
  induction calls generalizing now e K with
  | nil => rfl
  | cons c calls ih =>
    obtain ⟨t, call⟩ := c
    have ht := h.later (hlater _ List.mem_cons_self)
    obtain ⟨hfirst, hrest⟩ := List.pairwise_cons.mp hclock
    cases call with
    | op op =>
      obtain ⟨hreply, hshows⟩ := ht.apply op
      show _ :: _ = _ :: _
      rw [hreply, ih hshows hfirst hrest]
      rfl
    | activeExpire samplePerShard => exact ih (ht.activeExpire samplePerShard) hfirst hrest

/-- A new engine shows the empty map. -/
theorem new (setup : StorageSetup) (hmem : setup.config.maxMemoryBytes = 0) (now : TimePoint) :
    Shows now setup.limits { setup } fun _ => none :=
  ⟨StorageEngine.wf_new setup, rfl, hmem, rfl⟩

/-- **Over a whole run the engine replies what the abstract store does**, whatever its shards and
hash. -/
theorem replies_new (setup : StorageSetup) (hmem : setup.config.maxMemoryBytes = 0)
    {calls : List (TimePoint × Call)} (hclock : ClockMonotone calls) :
    StorageEngine.replies { setup } calls =
      Keyspace.replies setup.limits (fun _ => none) (operations calls) := by
  cases calls with
  | nil => rfl
  | cons c calls =>
    refine (Shows.new setup hmem c.1).replies_eq (fun c' hc' => ?_) hclock
    rcases List.mem_cons.mp hc' with rfl | hmem'
    · exact le_rfl
    · exact (List.pairwise_cons.mp hclock).1 c' hmem'

end Shows

/-- **Refinement.** Without a memory limit, every operation of a run returns what it returns on the
map, whatever the number of shards, the hash and the active expirations in between; so two runs of
the same operations under the same limits return the same. -/
theorem StorageEngine.replies_eq_map (setup : StorageSetup) (hmem : setup.config.maxMemoryBytes = 0)
    (calls : List (TimePoint × Call)) (hclock : ClockMonotone calls) :
    StorageEngine.replies { setup } calls =
        Keyspace.replies setup.limits (fun _ => none) (operations calls) ∧
      ∀ (setup' : StorageSetup) (calls' : List (TimePoint × Call)),
        setup'.config.maxMemoryBytes = 0 → setup'.limits = setup.limits → ClockMonotone calls' →
        operations calls' = operations calls →
        StorageEngine.replies { setup := setup' } calls' = StorageEngine.replies { setup } calls := by
  refine ⟨Shows.replies_new setup hmem hclock, fun setup' calls' hmem' hlimits hclock' hops => ?_⟩
  rw [Shows.replies_new setup hmem hclock, Shows.replies_new setup' hmem' hclock', hlimits, hops]

/-- A key with five milliseconds to live is swept away at its deadline, in two shards, and left
where it is in one; the reads that follow cannot tell. -/
theorem StorageEngine.replies_swept :
    let setup : StorageSetup :=
      { config := { shards := 2, maxMemoryBytes := 0 }, limits := {}, hash := List.length }
    let setup' : StorageSetup :=
      { config := { shards := 1, maxMemoryBytes := 0 }, limits := {}, hash := List.length }
    let set : TimePoint × Call := (0, .op (.set [107] [49] (some 5) .always))
    let get : TimePoint × Call := (5000000, .op (.get [107]))
    StorageEngine.replies { setup } [set, (5000000, .activeExpire 16), get] =
      StorageEngine.replies { setup := setup' } [set, get] := by
  intro setup setup' set get
  exact ((StorageEngine.replies_eq_map setup rfl [set, (5000000, .activeExpire 16), get]
    (by decide)).2 setup' [set, get] rfl rfl (by decide) rfl).symm

end VeloxDb
