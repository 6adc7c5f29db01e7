import VeloxDb.Commands.Mutation
import VeloxDb.Storage.Unlimited

/-!
# The memory that a command can take

A call can grow the memory by its charge at most, and it is refused for want of memory only if that
much is not left (`perform_of_room`). So a command that finds room for the charges of all its calls
does the same under the memory limit as without one (`run_unlimit`).
-/

namespace VeloxDb

open Decimal Util

/-- The call has been refused for want of memory. -/
def StorageCall.starved : (c : StorageCall) → c.Answer → Bool
  | .set _ _ _ _, write | .incrBy _ _, write | .append _ _, write => write.code = .noMemory
  | _, _ => false

/-- The longest number that a counter can hold has 20 bytes. -/
def counterMemory (key : Bytes) : ℕ := kEntryOverhead + key.length + 20

/-- The entries of the pairs of an `MSET`. -/
def pairsMemory : List Bytes → ℕ
  | key :: value :: rest => pairsMemory rest + entryMemory key value
  | _ => 0

/-- By how much a call can grow the memory. -/
def StorageCall.charge : StorageCall → ℕ
  | .set key value _ _ => entryMemory key value
  | .incrBy key _ => counterMemory key
  | .append key suffix => entryMemory key suffix
  | _ => 0

namespace StorageEngine

variable {e e' e'' : StorageEngine} {key : Bytes} {now : TimePoint} {n n' : ℕ}

/-- **A call does the same without the limit**, unless the limit refuses it. -/
theorem perform_unlimit {c : StorageCall} (h : c.starved (e.perform now c).1 = false) :
    e.unlimit.perform now c = (e.perform now c).map id unlimit := by
  cases c with
  | set key value ttl condition => exact set_unlimit (of_decide_eq_false h)
  | incrBy key delta => exact incrBy_unlimit (of_decide_eq_false h)
  | append key suffix => exact append_unlimit (of_decide_eq_false h)
  | del key => exact del_unlimit e key now
  | expire key ttl => exact expire_unlimit e key ttl now
  | expireAt key deadline => exact expireAt_unlimit e key deadline now
  | persist key => exact persist_unlimit e key now
  | flushShard i => rfl
  | releaseMemory bytes => exact congrArg (Prod.mk ()) (releaseMemory_unlimit e bytes)

/-- There is no limit, or `n` bytes are left. -/
def HasRoom (n : ℕ) (e : StorageEngine) : Prop :=
  e.maxMemoryBytes = 0 ∨ e.usedMemory + n ≤ e.maxMemoryBytes

/-- Room for fewer bytes. -/
theorem HasRoom.mono (h : e.HasRoom n) (hle : n' ≤ n) : e.HasRoom n' :=
  h.imp_right fun hroom => (Nat.add_le_add_left hle _).trans hroom

/-- The same limit, and at most `n` bytes more in use. -/
structure Spends (n : ℕ) (e e' : StorageEngine) : Prop where
  setup : e'.setup = e.setup
  used : e'.usedMemory ≤ e.usedMemory + n

namespace Spends

/-- Nothing is spent. -/
theorem refl (e : StorageEngine) : Spends n e e := ⟨rfl, Nat.le_add_right _ _⟩

/-- One step after the other. -/
theorem trans (h : Spends n e e') (h' : Spends n' e' e'') : Spends (n + n') e e'' :=
  ⟨h'.setup.trans h.setup, by have := h.used; have := h'.used; omega⟩

/-- The rest of the room is left. -/
theorem hasRoom (h : Spends n e e') (hroom : HasRoom (n + n') e) : HasRoom n' e' := by
  have hmax : e'.maxMemoryBytes = e.maxMemoryBytes :=
    congrArg (fun s : StorageSetup => s.config.maxMemoryBytes) h.setup
  have hused := h.used
  rcases hroom with hun | hroom
  · exact .inl (hmax.trans hun)
  · exact .inr (by omega)

/-- More may be spent. -/
theorem mono (h : Spends n e e') (hle : n ≤ n') : Spends n' e e' :=
  ⟨h.setup, h.used.trans (Nat.add_le_add_left hle _)⟩

/-- An erased entry gives memory back. -/
theorem eraseEntryLocked (e : StorageEngine) (i : ℕ) (k : Bytes) (x : Entry) :
    Spends 0 e (e.eraseEntryLocked i k x) := ⟨rfl, Nat.sub_le _ _⟩

/-- So does an expired one. -/
theorem eraseExpired (e : StorageEngine) (i : ℕ) (k : Bytes) (x : Entry) :
    Spends 0 e (e.eraseExpired i k x) := ⟨rfl, Nat.sub_le _ _⟩

/-- The look-up takes none. -/
theorem findLive (e : StorageEngine) (k : Bytes) (now : TimePoint) :
    Spends 0 e (e.findLive k now).2 := by
  unfold StorageEngine.findLive
  split
  · exact refl e
  · split_ifs
    · exact eraseExpired e _ _ _
    · exact refl e

/-- `del` takes none. -/
theorem del (e : StorageEngine) (k : Bytes) (now : TimePoint) : Spends 0 e (e.del k now).2 := by
  have hlive := findLive e k now
  rw [StorageEngine.del]
  rcases hfind : e.findLive k now with ⟨_ | entry, e'⟩ <;> rw [hfind] at hlive
  · exact hlive
  · exact hlive.trans (eraseEntryLocked e' _ _ _)

/-- `expire_at` takes none. -/
theorem expireAt (e : StorageEngine) (k : Bytes) (deadline now : TimePoint) :
    Spends 0 e (e.expireAt k deadline now).2 := by
  have hlive := findLive e k now
  rw [StorageEngine.expireAt]
  rcases hfind : e.findLive k now with ⟨_ | entry, e'⟩ <;> rw [hfind] at hlive
  · exact hlive
  · dsimp only
    split_ifs
    · exact hlive.trans (eraseExpired e' _ _ _)
    · exact ⟨hlive.setup, hlive.used⟩

end Spends

/-- An entry is stored if there is room for what it grows by. -/
theorem storeEntry_of_room {value : Bytes} (expiry : Option TimePoint) (now : TimePoint)
    (hn : entryMemory key value ≤ e.keyMemory key + n) (hroom : e.HasRoom n) :
    (e.storeEntry key value expiry now).1 = .ok ∧ Spends n e (e.storeEntry key value expiry now).2 := by
  have hgrant : ∃ used ≤ e.usedMemory + n,
      (if entryMemory key value > e.keyMemory key then
        e.reserveMemory (entryMemory key value - e.keyMemory key) else some e)
        = some { e with usedMemory := used } := by
    split_ifs
    · rw [reserveMemory]
      split_ifs with hfree hfull
      · exact ⟨e.usedMemory, Nat.le_add_right _ _, rfl⟩
      · have hleft := hroom.resolve_left fun hun => hfree (.inr hun)
        omega
      · exact ⟨_, by omega, rfl⟩
    · exact ⟨e.usedMemory, Nat.le_add_right _ _, rfl⟩
  obtain ⟨used, hused, hgrant⟩ := hgrant
  simp only [storeEntry, hgrant]
  exact ⟨trivial, rfl, (Nat.sub_le _ _).trans hused⟩

/-- Storing after the look-up. -/
theorem store_of_room {value : Bytes} (expiry : Option TimePoint)
    (hn : entryMemory key value ≤ (e.findLive key now).2.keyMemory key + n) (hroom : e.HasRoom n) :
    ((e.findLive key now).2.storeEntry key value expiry now).1 = .ok ∧
      Spends n e ((e.findLive key now).2.storeEntry key value expiry now).2 := by
  have hlive := Spends.findLive e key now
  rw [← Nat.zero_add n] at hroom
  obtain ⟨hok, hspends⟩ := storeEntry_of_room expiry now hn (hlive.hasRoom hroom)
  exact ⟨hok, Nat.zero_add n ▸ hlive.trans hspends⟩

/-- `set` with room for its entry. -/
theorem set_of_room {value : Bytes} {ttl : Option ℤ} {condition : SetCondition}
    (hroom : e.HasRoom (entryMemory key value)) :
    (e.set key value ttl condition now).1.code ≠ .noMemory ∧
      Spends (entryMemory key value) e (e.set key value ttl condition now).2 := by
  obtain ⟨hok, hspends⟩ := store_of_room (ttl.map (addMillis now))
    (Nat.le_add_left _ ((e.findLive key now).2.keyMemory key)) hroom
  simp only [set, eraseIfExpiredLocked_eq]
  split_ifs
  · exact ⟨by simp, .refl e⟩
  · exact ⟨by simp, .refl e⟩
  · exact ⟨by simp, (Spends.findLive e key now).mono (Nat.zero_le _)⟩
  · exact ⟨by simp [hok], hspends⟩

/-- `incr_by` with room for the longest number. -/
theorem incrBy_of_room {delta : ℤ} (hroom : e.HasRoom (counterMemory key)) :
    (e.incrBy key delta now).1.code ≠ .noMemory ∧
      Spends (counterMemory key) e (e.incrBy key delta now).2 := by
  have hlive := (Spends.findLive e key now).mono (Nat.zero_le (counterMemory key))
  simp only [incrBy]
  split_ifs
  · exact ⟨by simp, .refl e⟩
  cases hcurrent : currentInteger ((e.findLive key now).1.map Entry.value) with
  | none => exact ⟨by simp, hlive⟩
  | some current =>
    simp only
    split_ifs with hover
    · exact ⟨by simp, hlive⟩
    · exact ⟨by simp, hlive⟩
    · have hnext : nextInteger delta ((e.findLive key now).1.map Entry.item) = some (current + delta) := by
        rw [nextInteger, Option.map_map, show Item.value ∘ Entry.item = Entry.value from rfl, hcurrent,
          Option.bind_some, if_neg hover]
      have hlength := length_printInt_le (inI64_nextInteger hnext)
      have hgrows : entryMemory key (printInt (current + delta))
          ≤ (e.findLive key now).2.keyMemory key + counterMemory key := by
        simp only [entryMemory, counterMemory]
        omega
      obtain ⟨hok, hspends⟩ := store_of_room none hgrows hroom
      split
      · next hstore => rw [hstore] at hspends; exact ⟨by simp, hspends⟩
      · next code e' hne hstore => rw [hstore] at hok; exact (hne hok).elim

/-- `append` with room for an entry of its argument. -/
theorem append_of_room {suffix : Bytes} (hroom : e.HasRoom (entryMemory key suffix)) :
    (e.append key suffix now).1.code ≠ .noMemory ∧
      Spends (entryMemory key suffix) e (e.append key suffix now).2 := by
  have hlive := (Spends.findLive e key now).mono (Nat.zero_le (entryMemory key suffix))
  have hgrows : entryMemory key (((e.findLive key now).1.map Entry.value).getD [] ++ suffix)
      ≤ (e.findLive key now).2.keyMemory key + entryMemory key suffix := by
    unfold findLive
    split
    · exact Nat.le_add_left _ _
    · next entry hfind =>
      split_ifs
      · exact Nat.le_add_left _ _
      · simp only [keyMemory, hfind, Option.map_some, Option.getD_some, entryMemory, List.length_append]
        omega
  simp only [append]
  split_ifs
  · exact ⟨by simp, .refl e⟩
  · exact ⟨by simp, hlive⟩
  · obtain ⟨hok, hspends⟩ := store_of_room none hgrows hroom
    split
    · next hstore => rw [hstore] at hspends; exact ⟨by simp, hspends⟩
    · next code e' hne hstore => rw [hstore] at hok; exact (hne hok).elim

/-- **A call with room for its charge** is not refused for want of memory. -/
theorem perform_of_room (now : TimePoint) {c : StorageCall} (hroom : e.HasRoom c.charge) :
    c.starved (e.perform now c).1 = false ∧ Spends c.charge e (e.perform now c).2 := by
  cases c with
  | set key value ttl condition => exact (set_of_room hroom).imp_left decide_eq_false
  | incrBy key delta => exact (incrBy_of_room hroom).imp_left decide_eq_false
  | append key suffix => exact (append_of_room hroom).imp_left decide_eq_false
  | del key => exact ⟨rfl, .del e key now⟩
  | expire key ttl =>
    refine ⟨rfl, ?_⟩
    rw [perform, expire]
    split_ifs
    · exact .del e key now
    · exact .expireAt e key _ now
  | expireAt key deadline => exact ⟨rfl, .expireAt e key deadline now⟩
  | persist key =>
    refine ⟨rfl, ?_⟩
    have hlive := Spends.findLive e key now
    rw [perform, persist]
    rcases hfind : e.findLive key now with ⟨_ | entry, e'⟩ <;> rw [hfind] at hlive
    · exact hlive
    · dsimp only
      split_ifs
      · exact hlive
      · exact ⟨hlive.setup, hlive.used⟩
  | flushShard i => exact ⟨rfl, rfl, le_rfl⟩
  | releaseMemory bytes => exact ⟨rfl, rfl, Nat.sub_le _ _⟩

end StorageEngine

/-! ## Commands -/

/-- By how much a command can grow the memory. -/
def CommandName.charge : CommandName → List Bytes → ℕ
  | .set, _ :: key :: value :: _ => entryMemory key value
  | .mset, _ :: pairs => pairsMemory pairs
  | .incr, _ :: key :: _ | .decr, _ :: key :: _ => counterMemory key
  | .append, _ :: key :: suffix :: _ => entryMemory key suffix
  | _, _ => 0

namespace Mutation

open Commands

variable {now : TimePoint} {e : StorageEngine} {args : List Bytes} {n : ℕ}

/-- The charges of the calls, whatever the answers, come to at most `n`. -/
def Costs : ℕ → Mutation → Prop
  | _, .done _ _ => True
  | n, .call c next => c.charge ≤ n ∧ ∀ answer, (next answer).Costs (n - c.charge)

/-- **A command with room for its calls does the same without the limit.** -/
theorem run_unlimit (now : TimePoint) {m : Mutation} (hm : m.Costs n) (hroom : e.HasRoom n) :
    m.run now e.unlimit = { m.run now e with storage := (m.run now e).storage.unlimit } ∧
      StorageEngine.Spends n e (m.run now e).storage := by
  induction m generalizing e n with
  | done result record => exact ⟨rfl, .refl e⟩
  | call c next ih =>
    obtain ⟨hc, hnext⟩ := hm
    rw [← Nat.add_sub_cancel' hc] at hroom ⊢
    obtain ⟨hgranted, hspends⟩ := StorageEngine.perform_of_room now (hroom.mono (Nat.le_add_right _ _))
    obtain ⟨hrun, hrest⟩ := ih (e.perform now c).1 (hnext _) (hspends.hasRoom hroom)
    refine ⟨?_, hspends.trans hrest⟩
    rw [run_call (StorageEngine.perform_unlimit hgranted)]
    exact hrun

/-- The loop of `DEL` takes none. -/
theorem costs_delAll (args keys : List Bytes) (deleted : ℕ) : (delAll args keys deleted).Costs 0 := by
  induction keys generalizing deleted with
  | nil => trivial
  | cons key keys ih => exact ⟨le_rfl, fun n => ih _⟩

/-- The loop of `FLUSHDB` takes none. -/
theorem costs_flushShards (shards : List ℕ) (released : ℕ) : (flushShards shards released).Costs 0 := by
  induction shards generalizing released with
  | nil => exact ⟨le_rfl, fun _ => trivial⟩
  | cons i shards ih => exact ⟨le_rfl, fun n => ih _⟩

/-- The loop of `MSET` takes what its pairs do. -/
theorem costs_setPairs (args pairs : List Bytes) :
    (setPairs args pairs).Costs (pairsMemory pairs) := by
  fun_induction setPairs args pairs with
  | case1 key value rest ih =>
    refine ⟨Nat.le_add_left _ _, fun write => ?_⟩
    beta_reduce
    split_ifs
    · rw [pairsMemory, StorageCall.charge, Nat.add_sub_cancel]
      exact ih
    · trivial
  | case2 => trivial

/-- **What a command can take is its charge.** -/
theorem costs_mutation {name : CommandName} {shardCount : ℕ} {m : Mutation}
    (h : mutation name shardCount now args = some m) : m.Costs (name.charge args) := by
  cases shape_mutation h with
  | refused => trivial
  | single hc hnext =>
    refine ⟨by cases hc <;> exact le_rfl, fun answer => ?_⟩
    obtain ⟨result, record, hdone⟩ := hnext answer
    rw [hdone]
    trivial
  | del => exact costs_delAll _ _ _
  | mset => exact costs_setPairs _ _
  | flushdb => exact costs_flushShards _ _

end Mutation

end VeloxDb
