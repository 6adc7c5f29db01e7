import VeloxDb.Commands.Mutation
import VeloxDb.Storage.Refinement
import VeloxDb.Storage.Refusals
import VeloxDb.Storage.Unlimited

/-!
# What a call depends on

A call on the storage is about one key or, in a flush, about the keys of a shard. Without a memory
limit it leaves all other keys as they are (`perform_confined`), and what it returns and leaves of
its own keys depends on nothing else (`Peers.perform`). With a limit neither would hold: the memory
that one call frees is there for another.
-/

namespace VeloxDb

open Decimal Util

/-- What a call is about. -/
inductive Target
  | key (k : Bytes)
  | shard (i : ℕ)
  | nothing

/-- The keys that are meant. -/
def Target.keys (setup : StorageSetup) : Target → Set Bytes
  | .key k => {k}
  | .shard i => { k | setup.shardForKey k = i }
  | .nothing => ∅

/-- Both may mean the same key. -/
def Target.meets (setup : StorageSetup) : Target → Target → Bool
  | .key k, .key k' => k = k'
  | .key k, .shard i | .shard i, .key k => setup.shardForKey k = i
  | .shard i, .shard j => i = j
  | .nothing, _ | _, .nothing => false

/-- Targets that do not meet have no key in common. -/
theorem Target.notMem_of_meets {setup : StorageSetup} {t t' : Target} (h : t.meets setup t' = false) :
    ∀ k ∈ t.keys setup, k ∉ t'.keys setup := by
  intro k hk hk'
  cases t with
  | key j =>
    obtain rfl := Set.mem_singleton_iff.mp hk
    cases t' with
    | key j' => exact of_decide_eq_false h hk'
    | shard i => exact of_decide_eq_false h hk'
    | nothing => exact hk'
  | shard i =>
    cases t' with
    | key j' =>
      obtain rfl := Set.mem_singleton_iff.mp hk'
      exact of_decide_eq_false h hk
    | shard j => exact of_decide_eq_false h (hk.symm.trans hk')
    | nothing => exact hk'
  | nothing => exact hk

namespace StorageCall

/-- A call is about its key, a flush about its shard. -/
def target : StorageCall → Target
  | .set key _ _ _ | .del key | .incrBy key _ | .append key _ | .expire key _ | .expireAt key _
  | .persist key => .key key
  | .flushShard i => .shard i
  | .releaseMemory _ => .nothing

/-- The keys that a call is about. -/
def footprint (setup : StorageSetup) (c : StorageCall) : Set Bytes := c.target.keys setup

/-- The memory limit is nothing to that. -/
theorem footprint_unlimited (c : StorageCall) (setup : StorageSetup) :
    c.footprint setup.unlimited = c.footprint setup := by
  cases c <;> rfl

/-- A flush is of a shard that there is. -/
def InRange (setup : StorageSetup) : StorageCall → Prop
  | .flushShard i => i < setup.shardCount
  | _ => True

end StorageCall

/-! ## What a call leaves alone -/

namespace StorageEngine

variable {e e' : StorageEngine} {now : TimePoint} {k : Bytes} {c : StorageCall}

/-- Well formed, with the setup of `e`, and unchanged but for the keys that are touched. -/
structure Confined (touched : Set Bytes) (e e' : StorageEngine) : Prop where
  setup : e'.setup = e.setup
  wf : e'.WF
  keyspace : ∀ j ∉ touched, e'.keyspace j = e.keyspace j

/-- A step that writes one key is confined to it. -/
theorem Becomes.confined {v : Option Item} (h : Becomes e e' (Function.update e.keyspace k v)) :
    Confined {k} e e' :=
  ⟨h.setup, h.wf, fun j hj => by rw [h.keyspace, Function.update_of_ne hj]⟩

/-- A write that has been refused. -/
theorem LeftAsWas.confined (h : LeftAsWas now k e e') (hre : Reclaimed now e e') :
    Confined {k} e e' :=
  ⟨hre.setup, hre.wf, fun j hj => by rw [StorageEngine.keyspace, h.find_of_ne hj]; rfl⟩

/-- The loop of `flushdb`, one shard. -/
theorem flushShard_spec (h : e.WF) (hun : e.maxMemoryBytes = 0) (i : ℕ) :
    Becomes e (e.flushShard i).2
      fun k => if e.setup.shardForKey k = i then none else e.keyspace k := by
  have hfind : ∀ k, (e.flushShard i).2.find k = if e.setup.shardForKey k = i then none else e.find k :=
    fun k => find_withShard i _ k
  refine ⟨rfl, ⟨⟨fun j hj k hk => ?_, fun j hj => ?_, h.unlimited, fun hmax => absurd hun hmax,
    fun hmax => absurd hun hmax⟩, fun k x hk => ?_⟩, ?_⟩
  · by_cases hji : j = i
    · subst hji
      simp [flushShard, withShard] at hk
    · exact h.home j hj k (by simpa [flushShard, withShard, hji] using hk)
  · by_cases hji : j = i
    · subst hji
      simp [flushShard, withShard]
    · simpa [flushShard, withShard, hji] using h.memory j hj
  · rw [hfind] at hk
    split_ifs at hk
    exact h.sizes k x hk
  · funext k
    rw [StorageEngine.keyspace, hfind]
    split_ifs <;> rfl

/-- Without a limit nothing is counted, and nothing is released. -/
theorem releaseMemory_of_unlimited (h : e.WF) (hun : e.maxMemoryBytes = 0) (bytes : ℕ) :
    e.releaseMemory bytes = e := by
  obtain ⟨setup, shards, usedMemory, expiredKeys⟩ := e
  obtain rfl : usedMemory = 0 := h.unlimited hun
  simp [releaseMemory]

/-- **A call changes the keys that it is about**, and no other. -/
theorem perform_confined (h : e.WF) (hun : e.maxMemoryBytes = 0) (now : TimePoint) (c : StorageCall) :
    Confined (c.footprint e.setup) e (e.perform now c).2 := by
  cases c with
  | set key value ttl condition =>
    by_cases hok : (e.set key value ttl condition now).1.code = .ok
    · exact (set_of_ok h hok).2.2.confined
    · exact (set_leftAsWas h hok).confined (set_reclaimed h hok)
  | incrBy key delta =>
    by_cases hok : (e.incrBy key delta now).1.code = .ok
    · obtain ⟨n, -, -, hb⟩ := incrBy_of_ok h hok
      exact hb.confined
    · exact (incrBy_leftAsWas h hok).confined (incrBy_reclaimed h hok)
  | append key suffix =>
    by_cases hok : (e.append key suffix now).1.code = .ok
    · exact (append_of_ok h hok).2.confined
    · exact (append_leftAsWas h hok).confined (append_reclaimed h hok)
  | del key =>
    obtain ⟨e', hdel, hb⟩ := del_spec h key now
    rw [perform, hdel]
    exact hb.confined
  | expire key ttl =>
    by_cases httl : ttl ≤ 0
    · obtain ⟨e', hexpire, hb⟩ := expire_of_nonpos h key httl now
      rw [perform, hexpire]
      exact hb.confined
    · obtain ⟨e', hexpire, hb⟩ := expireAt_spec h key (addMillis now ttl) now
      rw [perform, expire_of_pos e key (by omega) now, hexpire]
      exact hb.confined
  | expireAt key deadline =>
    obtain ⟨e', hexpire, hb⟩ := expireAt_spec h key deadline now
    rw [perform, hexpire]
    exact hb.confined
  | persist key =>
    obtain ⟨e', hpersist, hb⟩ := persist_spec h key now
    rw [perform, hpersist]
    exact hb.confined
  | flushShard i =>
    have hb := flushShard_spec h hun i
    refine ⟨hb.setup, hb.wf, fun j hj => ?_⟩
    rw [perform, hb.keyspace]
    exact if_neg hj
  | releaseMemory bytes =>
    rw [perform, releaseMemory_of_unlimited h hun]
    exact ⟨rfl, h, fun _ _ => rfl⟩

/-! ## What a call depends on -/

/-- An engine without a limit shows its own keyspace. -/
theorem shows (h : e.WF) (hun : e.maxMemoryBytes = 0) (now : TimePoint) :
    Shows now e.setup.limits e e.keyspace := ⟨h, rfl, hun, rfl⟩

/-- Two calls on one key return the same, and leave the same of the key. -/
def SameOn {α : Type} (k : Bytes) (r r' : α × StorageEngine) : Prop :=
  r'.1 = r.1 ∧ r'.2.keyspace k = r.2.keyspace k

/-- Two calls that write the same. -/
theorem Becomes.sameOn {α : Type} {f f' : StorageEngine} {v : Option Item} (a : α)
    (h : Becomes e f (Function.update e.keyspace k v))
    (h' : Becomes e' f' (Function.update e'.keyspace k v)) : SameOn k (a, f) (a, f') :=
  ⟨rfl, by rw [h.keyspace, h'.keyspace, Function.update_self, Function.update_self]⟩

/-- What the look-up leaves of the key is visible. -/
theorem keyspace_findLive (h : e.WF) (k : Bytes) (now : TimePoint) :
    (e.findLive k now).2.keyspace k = e.keyspace.visible now k := by
  rw [(findLive_spec h k now).1.keyspace, Keyspace.reclaim, Function.update_self]

/-- Two engines of one setup, without a limit. -/
structure Peers (e e' : StorageEngine) : Prop where
  wf : e.WF
  wf' : e'.WF
  setup : e'.setup = e.setup
  unlimited : e.maxMemoryBytes = 0

namespace Peers

/-- The other engine has no limit either. -/
theorem unlimited' (h : Peers e e') : e'.maxMemoryBytes = 0 := by
  rw [maxMemoryBytes, h.setup]
  exact h.unlimited

/-- The engines can change places. -/
theorem symm (h : Peers e e') : Peers e' e := ⟨h.wf', h.wf, h.setup.symm, h.unlimited'⟩

/-- Two refused writes have both looked the key up, or neither has. -/
theorem keyspace_of_refused (h : Peers e e') (hk : e'.keyspace k = e.keyspace k) {p p' : Prop}
    [Decidable p] [Decidable p'] (hp : p' ↔ p) :
    (if p' then (e'.findLive k now).2 else e').keyspace k
      = (if p then (e.findLive k now).2 else e).keyspace k := by
  simp only [hp]
  split_ifs
  · rw [keyspace_findLive h.wf, keyspace_findLive h.wf', Keyspace.visible, hk]
    rfl
  · exact hk

/-- `set` depends on its key only. -/
theorem set (h : Peers e e') (hk : e'.keyspace k = e.keyspace k) (value : Bytes) (ttl : Option ℤ)
    (condition : SetCondition) :
    SameOn k (e.set k value ttl condition now) (e'.set k value ttl condition now) := by
  have hv := Keyspace.visible_congr hk now
  have hret : (e'.set k value ttl condition now).1 = (e.set k value ttl condition now).1 := by
    rw [((shows h.wf h.unlimited now).set k value ttl condition).1,
      ((shows h.wf' h.unlimited' now).set k value ttl condition).1, h.setup]
    simp only [Keyspace.set, hv]
    split_ifs <;> rfl
  refine ⟨hret, ?_⟩
  by_cases hok : (e.set k value ttl condition now).1.code = .ok
  · have hb := (set_of_ok h.wf hok).2.2
    have hb' := (set_of_ok h.wf' (hret ▸ hok)).2.2
    rw [hb.keyspace, hb'.keyspace, Function.update_self, Function.update_self]
  · rw [set_refused_eq hok, set_refused_eq (hret ▸ hok)]
    exact h.keyspace_of_refused hk (by rw [h.setup])

/-- `incr_by` depends on its key only. -/
theorem incrBy (h : Peers e e') (hk : e'.keyspace k = e.keyspace k) (delta : ℤ) :
    SameOn k (e.incrBy k delta now) (e'.incrBy k delta now) := by
  have hv := Keyspace.visible_congr hk now
  have hret : (e'.incrBy k delta now).1 = (e.incrBy k delta now).1 := by
    rw [((shows h.wf h.unlimited now).incrBy k delta).1,
      ((shows h.wf' h.unlimited' now).incrBy k delta).1, h.setup]
    simp only [Keyspace.incrBy, hv]
    split_ifs
    · rfl
    · split
      · rfl
      · split_ifs <;> rfl
  refine ⟨hret, ?_⟩
  by_cases hok : (e.incrBy k delta now).1.code = .ok
  · obtain ⟨n, hn, -, hb⟩ := incrBy_of_ok h.wf hok
    obtain ⟨n', hn', -, hb'⟩ := incrBy_of_ok h.wf' (hret ▸ hok)
    rw [hv, hn] at hn'
    cases hn'
    rw [hb.keyspace, hb'.keyspace, Function.update_self, Function.update_self]
  · rw [incrBy_refused_eq hok, incrBy_refused_eq (hret ▸ hok)]
    exact h.keyspace_of_refused hk (by rw [h.setup])

/-- `append` depends on its key only. -/
theorem append (h : Peers e e') (hk : e'.keyspace k = e.keyspace k) (suffix : Bytes) :
    SameOn k (e.append k suffix now) (e'.append k suffix now) := by
  have hv := Keyspace.visible_congr hk now
  have hret : (e'.append k suffix now).1 = (e.append k suffix now).1 := by
    rw [((shows h.wf h.unlimited now).append k suffix).1,
      ((shows h.wf' h.unlimited' now).append k suffix).1, h.setup]
    simp only [Keyspace.append, hv]
    split_ifs <;> rfl
  refine ⟨hret, ?_⟩
  by_cases hok : (e.append k suffix now).1.code = .ok
  · have hb := (append_of_ok h.wf hok).2
    have hb' := (append_of_ok h.wf' (hret ▸ hok)).2
    rw [hb.keyspace, hb'.keyspace, Function.update_self, Function.update_self, hv]
  · rw [append_refused_eq hok, append_refused_eq (hret ▸ hok)]
    exact h.keyspace_of_refused hk (by rw [h.setup])

/-- `expire_at` depends on its key only. -/
theorem expireAt (h : Peers e e') (hk : e'.keyspace k = e.keyspace k) (deadline : TimePoint) :
    SameOn k (e.expireAt k deadline now) (e'.expireAt k deadline now) := by
  obtain ⟨f, hf, hb⟩ := expireAt_spec h.wf k deadline now
  obtain ⟨f', hf', hb'⟩ := expireAt_spec h.wf' k deadline now
  have hv := Keyspace.visible_congr hk now
  rw [hf, hf']
  rw [hv] at hb' ⊢
  exact hb.sameOn _ hb'

/-- `expire` depends on its key only. -/
theorem expire (h : Peers e e') (hk : e'.keyspace k = e.keyspace k) (ttl : ℤ) :
    SameOn k (e.expire k ttl now) (e'.expire k ttl now) := by
  by_cases httl : ttl ≤ 0
  · obtain ⟨f, hf, hb⟩ := expire_of_nonpos h.wf k httl now
    obtain ⟨f', hf', hb'⟩ := expire_of_nonpos h.wf' k httl now
    rw [hf, hf', Keyspace.visible_congr hk now]
    exact hb.sameOn _ hb'
  · rw [expire_of_pos e k (by omega) now, expire_of_pos e' k (by omega) now]
    exact h.expireAt hk _

/-- `del` depends on its key only. -/
theorem del (h : Peers e e') (hk : e'.keyspace k = e.keyspace k) :
    SameOn k (e.del k now) (e'.del k now) := by
  obtain ⟨f, hf, hb⟩ := del_spec h.wf k now
  obtain ⟨f', hf', hb'⟩ := del_spec h.wf' k now
  rw [hf, hf', Keyspace.visible_congr hk now]
  exact hb.sameOn _ hb'

/-- `persist` depends on its key only. -/
theorem persist (h : Peers e e') (hk : e'.keyspace k = e.keyspace k) :
    SameOn k (e.persist k now) (e'.persist k now) := by
  obtain ⟨f, hf, hb⟩ := persist_spec h.wf k now
  obtain ⟨f', hf', hb'⟩ := persist_spec h.wf' k now
  have hv := Keyspace.visible_congr hk now
  rw [hf, hf']
  rw [hv] at hb' ⊢
  exact hb.sameOn _ hb'

/-- What a shard weighs is fixed by what its keys hold. -/
theorem memoryBytes_le (h : Peers e e') {i : ℕ} (hi : i < e.setup.shardCount)
    (hK : ∀ j, e.setup.shardForKey j = i → e'.keyspace j = e.keyspace j) :
    (e.shards i).memoryBytes ≤ (e'.shards i).memoryBytes := by
  rw [h.wf.memory i hi, h.wf'.memory i (h.setup ▸ hi)]
  refine Keyed.weight_le_of_lookup (e.shards i).map.nodupKeys fun j x hx => ?_
  have hhome : e.setup.shardForKey j = i :=
    h.wf.home i hi j (AList.lookup_isSome.mp (by rw [AList.lookup, hx]; rfl))
  have hfind : e.find j = some x := by
    rw [find, hhome]
    exact hx
  have hitem : e'.keyspace j = some x.item := by
    rw [hK j hhome]
    exact keyspace_eq_some.mpr ⟨x, hfind, rfl⟩
  obtain ⟨y, hy, hyx⟩ := keyspace_eq_some.mp hitem
  refine ⟨y, ?_, ?_⟩
  · rw [find, h.setup, hhome] at hy
    exact hy
  · rw [entryWeight, entryWeight, show y.value = x.value from congrArg Item.value hyx]

/-- **A call depends on the keys that it is about.** -/
theorem perform (h : Peers e e') (now : TimePoint) (hc : c.InRange e.setup)
    (hK : ∀ j ∈ c.footprint e.setup, e'.keyspace j = e.keyspace j) :
    (e'.perform now c).1 = (e.perform now c).1 ∧
      ∀ j ∈ c.footprint e.setup, (e'.perform now c).2.keyspace j = (e.perform now c).2.keyspace j := by
  -- a call on one key
  have hone : ∀ {key : Bytes}, c.footprint e.setup = {key} →
      (e'.keyspace key = e.keyspace key → SameOn key (e.perform now c) (e'.perform now c)) →
      (e'.perform now c).1 = (e.perform now c).1 ∧ ∀ j ∈ c.footprint e.setup,
        (e'.perform now c).2.keyspace j = (e.perform now c).2.keyspace j := by
    intro key hkey hsame
    rw [hkey] at hK ⊢
    obtain ⟨hret, hitem⟩ := hsame (hK key rfl)
    refine ⟨hret, fun j hj => ?_⟩
    rw [Set.mem_singleton_iff.mp hj]
    exact hitem
  cases c with
  | set key value ttl condition => exact hone rfl fun hk => h.set hk value ttl condition
  | incrBy key delta => exact hone rfl fun hk => h.incrBy hk delta
  | append key suffix => exact hone rfl fun hk => h.append hk suffix
  | expireAt key deadline => exact hone rfl fun hk => h.expireAt hk deadline
  | expire key ttl => exact hone rfl fun hk => h.expire hk ttl
  | del key => exact hone rfl h.del
  | persist key => exact hone rfl h.persist
  | flushShard i =>
    refine ⟨le_antisymm ?_ (h.memoryBytes_le hc hK), fun j hj => ?_⟩
    · refine h.symm.memoryBytes_le (h.setup ▸ hc) fun j hj => (hK j ?_).symm
      rw [h.setup] at hj
      exact hj
    · have hb := flushShard_spec h.wf h.unlimited i
      have hb' := flushShard_spec h.wf' h.unlimited' i
      rw [StorageEngine.perform, StorageEngine.perform, hb.keyspace, hb'.keyspace, h.setup]
      exact (if_pos hj).trans (if_pos hj).symm
  | releaseMemory bytes => exact ⟨rfl, fun j hj => absurd hj (Set.notMem_empty j)⟩

end Peers

end StorageEngine

/-! ## Commands -/

namespace Mutation

open Commands

variable {setup : StorageSetup} {now : TimePoint} {args : List Bytes}

/-- Every flush is of a shard that there is. -/
def InRange (setup : StorageSetup) : Mutation → Prop
  | .done _ _ => True
  | .call c next => c.InRange setup ∧ ∀ answer, (next answer).InRange setup

/-- The loop of `DEL` flushes nothing. -/
theorem inRange_delAll (args keys : List Bytes) (deleted : ℕ) :
    (delAll args keys deleted).InRange setup := by
  induction keys generalizing deleted with
  | nil => trivial
  | cons key keys ih => exact ⟨trivial, fun n => ih _⟩

/-- The loop of `MSET` flushes nothing. -/
theorem inRange_setPairs (args pairs : List Bytes) : (setPairs args pairs).InRange setup := by
  fun_induction setPairs args pairs with
  | case1 key value rest ih =>
    refine ⟨trivial, fun write => ?_⟩
    beta_reduce
    split_ifs
    · exact ih
    · trivial
  | case2 => trivial

/-- The loop of `FLUSHDB` flushes the shards that it is given. -/
theorem inRange_flushShards {shards : List ℕ} (h : ∀ i ∈ shards, i < setup.shardCount)
    (released : ℕ) : (flushShards shards released).InRange setup := by
  induction shards generalizing released with
  | nil => exact ⟨trivial, fun _ => trivial⟩
  | cons i shards ih =>
    exact ⟨h i List.mem_cons_self, fun n => ih (fun j hj => h j (List.mem_cons_of_mem i hj)) _⟩

/-- **The flushes of a command are of shards that there are.** -/
theorem inRange_mutation {name : CommandName} {m : Mutation}
    (h : mutation name setup.shardCount now args = some m) : m.InRange setup := by
  cases shape_mutation h with
  | refused => trivial
  | single hc hnext =>
    refine ⟨by cases hc <;> trivial, fun answer => ?_⟩
    obtain ⟨result, record, hdone⟩ := hnext answer
    rw [hdone]
    trivial
  | del => exact inRange_delAll _ _ _
  | mset => exact inRange_setPairs _ _
  | flushdb => exact inRange_flushShards (fun i hi => List.mem_range.mp hi) _

/-- The calls that a program makes, with their answers, and what is left of it. -/
inductive Makes : Mutation → List (Σ c : StorageCall, c.Answer) → Mutation → Prop
  | nil (m : Mutation) : Makes m [] m
  | cons {c : StorageCall} {next : c.Answer → Mutation} {answer : c.Answer}
      {made : List (Σ c : StorageCall, c.Answer)} {rest : Mutation} :
      Makes (next answer) made rest → Makes (.call c next) (⟨c, answer⟩ :: made) rest

/-- One more call. -/
theorem Makes.concat {m : Mutation} {made : List (Σ c : StorageCall, c.Answer)} {c : StorageCall}
    {next : c.Answer → Mutation} (h : Makes m made (.call c next)) (answer : c.Answer) :
    Makes m (made ++ [⟨c, answer⟩]) (next answer) := by
  generalize hrest : Mutation.call c next = rest at h
  induction h with
  | nil m =>
    subst hrest
    exact .cons (.nil _)
  | cons _ ih => exact .cons (ih hrest)

end Mutation

end VeloxDb
