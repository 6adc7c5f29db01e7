import VeloxDb.Commands.Registry
import VeloxDb.Storage.Operations

/-!
# What a command can do

`effect_cases` is the one case analysis over the commands on data. A command either has no record,
and then drops at most expired entries, or it is one of the writes of `Logs`, which has one
constructor for each way a record comes about. The exception is an `MSET` that is refused at a later
pair: it has no record although its first pairs are stored.
-/

namespace VeloxDb

open Decimal Util

namespace StorageEngine

variable {e : StorageEngine} {k : Bytes} {now : TimePoint}

/-! ## Writes that went through -/

/-- A `set` that says ok met its condition, was admitted, and stored the value with its deadline. -/
theorem set_of_ok (h : e.WF) {v : Bytes} {ttl : Option ℤ} {c : SetCondition}
    (hok : (e.set k v ttl c now).1.code = .ok) :
    c.Allows (e.keyspace.visible now k) ∧ e.Admits k v ∧
      Becomes e (e.set k v ttl c now).2
        (Function.update e.keyspace k (some ⟨v, ttl.map (addMillis now)⟩)) := by
  by_cases hn : c.Allows (e.keyspace.visible now k) ∧ e.Admits k v
  · obtain ⟨e', hset, hb⟩ := set_of_admits h ttl hn.1 hn.2
    rw [hset]
    exact ⟨hn.1, hn.2, hb⟩
  · exact absurd hok (set_of_refused h ttl hn).1

/-- An `incr_by` that says ok read a number, was admitted, and stored the sum. -/
theorem incrBy_of_ok (h : e.WF) {delta : ℤ} (hok : (e.incrBy k delta now).1.code = .ok) :
    ∃ n, nextInteger delta (e.keyspace.visible now k) = some n ∧ e.Admits k (printInt n) ∧
      Becomes e (e.incrBy k delta now).2
        (Function.update e.keyspace k (some ⟨printInt n, none⟩)) := by
  by_contra hn
  refine absurd hok (incrBy_of_refused h fun n hnext ha => hn ⟨n, hnext, ha, ?_⟩).1
  obtain ⟨e', hincr, hb⟩ := incrBy_of_admits h hnext ha
  rw [hincr]
  exact hb

/-- An `append` that says ok was admitted and stored the longer value, without a deadline. -/
theorem append_of_ok (h : e.WF) {suffix : Bytes} (hok : (e.append k suffix now).1.code = .ok) :
    e.Admits k (appended suffix (e.keyspace.visible now k)) ∧
      Becomes e (e.append k suffix now).2
        (Function.update e.keyspace k
          (some ⟨appended suffix (e.keyspace.visible now k), none⟩)) := by
  by_cases ha : e.Admits k (appended suffix (e.keyspace.visible now k))
  · obtain ⟨e', happend, hb⟩ := append_of_admits h rfl ha
    rw [happend]
    exact ⟨ha, hb⟩
  · exact absurd hok (append_of_refused h ha).1

/-- A write that replies no success has dropped at most the expired entry of its key. -/
theorem set_reclaimed (h : e.WF) {v : Bytes} {ttl : Option ℤ} {c : SetCondition}
    (hok : (e.set k v ttl c now).1.code ≠ .ok) : Reclaimed now e (e.set k v ttl c now).2 := by
  refine (set_of_refused h ttl fun hn => hok ?_).2
  obtain ⟨e', hset, -⟩ := set_of_admits h ttl hn.1 hn.2
  rw [hset]

/-- An `incr_by` that is refused drops at most an expired entry. -/
theorem incrBy_reclaimed (h : e.WF) {delta : ℤ} (hok : (e.incrBy k delta now).1.code ≠ .ok) :
    Reclaimed now e (e.incrBy k delta now).2 := by
  refine (incrBy_of_refused h fun n hnext ha => hok ?_).2
  obtain ⟨e', hincr, -⟩ := incrBy_of_admits h hnext ha
  rw [hincr]

/-- An `append` that is refused drops at most an expired entry. -/
theorem append_reclaimed (h : e.WF) {suffix : Bytes} (hok : (e.append k suffix now).1.code ≠ .ok) :
    Reclaimed now e (e.append k suffix now).2 := by
  refine (append_of_refused h fun ha => hok ?_).2
  obtain ⟨e', happend, -⟩ := append_of_admits h rfl ha
  rw [happend]

/-! ## Deletions that change nothing -/

/-- Erasing a key that shows nothing drops an expired entry at most. -/
theorem reclaimed_of_visible_none {e' : StorageEngine} (hv : e.keyspace.visible now k = none)
    (hb : Becomes e e' (Function.update e.keyspace k none)) : Reclaimed now e e' := by
  refine hb.reclaimed ?_
  rw [← reclaim_of_visible_none hv]
  exact Keyspace.reclaim_reclaims _ _ _

/-- The keyspace after `DEL` of these keys. -/
def without (K : Keyspace) (keys : List Bytes) : Keyspace := fun k => if k ∈ keys then none else K k

/-- Erasing one key after the other. -/
theorem without_cons (K : Keyspace) (key : Bytes) (keys : List Bytes) :
    without (Function.update K key none) keys = without K (key :: keys) := by
  funext k
  by_cases hk : k = key
  · subst hk
    simp [without]
  · simp [without, hk]

/-- `DEL` removes its keys; where it counts none, none was visible. -/
theorem delAll_spec (h : e.WF) (keys : List Bytes) (now : TimePoint) :
    Becomes e (e.delAll keys now).2 (without e.keyspace keys) ∧
      ((e.delAll keys now).1 = 0 → Reclaimed now e (e.delAll keys now).2) := by
  induction keys generalizing e with
  | nil => exact ⟨⟨rfl, h, by funext; simp [without, delAll_nil]⟩, fun _ => .refl h⟩
  | cons key keys ih =>
    obtain ⟨e₁, hdel, hb₁⟩ := del_spec h key now
    obtain ⟨hb, hre⟩ := ih hb₁.wf
    rw [hb₁.keyspace, without_cons] at hb
    rw [delAll_cons, hdel]
    refine ⟨hb₁.trans hb, fun hn => ?_⟩
    obtain ⟨hzero, hrest⟩ := Nat.add_eq_zero_iff.mp hn
    have hv : e.keyspace.visible now key = none := by
      by_contra hsome
      rw [if_pos (Option.isSome_iff_ne_none.mpr hsome)] at hzero
      cases hzero
    exact (reclaimed_of_visible_none hv hb₁).trans (hre hrest)

end StorageEngine

/-! ## Replies -/

namespace CommandResult

/-- `OK` is no error. -/
@[simp] theorem isError_ok : Commands.ok.isError = false := rfl

/-- An integer is no error. -/
@[simp] theorem isError_integer (i : ℤ) : (Commands.integer i).isError = false := rfl

/-- A null bulk string is no error. -/
@[simp] theorem isError_nullBulk (b : Bool) : (CommandResult.mk Resp.nullBulk b).isError = false := rfl

/-- An error is one. -/
@[simp] theorem isError_err (message : Bytes) : (Commands.err message).isError = true := rfl

end CommandResult

/-! ## The case analysis -/

namespace Commands

/-- The writes that have a record: the command, its arguments and its effect. -/
inductive Logs (now : TimePoint) (e : StorageEngine) : CommandName → List Bytes → Effect → Prop
  | set {name key value : Bytes} {rest : List Bytes} {options : SetOptions}
      (hparse : parseSetOptions rest {} = .ok options)
      (hok : (e.set key value (options.effectiveTtl now) options.condition now).1.code = .ok) :
      Logs now e .set (name :: key :: value :: rest)
        ⟨(e.set key value (options.effectiveTtl now) options.condition now).2, ok,
          some (setRecord key value options now)⟩
  | del {name : Bytes} {keys : List Bytes} (hkeys : keys ≠ [])
      (hdeleted : (e.delAll keys now).1 ≠ 0) :
      Logs now e .del (name :: keys)
        ⟨(e.delAll keys now).2, integer (e.delAll keys now).1, some (name :: keys)⟩
  | mset {name : Bytes} {pairs : List Bytes} (hlen : 2 ≤ pairs.length) (heven : pairs.length % 2 = 0)
      (hok : (setPairs now pairs e).1 = .ok) :
      Logs now e .mset (name :: pairs) ⟨(setPairs now pairs e).2, ok, some (name :: pairs)⟩
  | incr {name key : Bytes} (hok : (e.incrBy key 1 now).1.code = .ok) :
      Logs now e .incr [name, key]
        ⟨(e.incrBy key 1 now).2, integer (e.incrBy key 1 now).1.integer, some [name, key]⟩
  | decr {name key : Bytes} (hok : (e.incrBy key (-1) now).1.code = .ok) :
      Logs now e .decr [name, key]
        ⟨(e.incrBy key (-1) now).2, integer (e.incrBy key (-1) now).1.integer, some [name, key]⟩
  | append {name key suffix : Bytes} (hok : (e.append key suffix now).1.code = .ok) :
      Logs now e .append [name, key, suffix]
        ⟨(e.append key suffix now).2, integer (e.append key suffix now).1.integer,
          some [name, key, suffix]⟩
  | expire {name key value : Bytes} {ttl : ℤ} (hparse : parseTtlMs value 1000 = some ttl)
      (hchanged : (e.expire key ttl now).1 = true) :
      Logs now e .expire [name, key, value]
        ⟨(e.expire key ttl now).2, integer 1,
          some [ascii "PEXPIREAT", key, pxatArgFromTtl now ttl]⟩
  | pexpire {name key value : Bytes} {ttl : ℤ} (hparse : parseTtlMs value 1 = some ttl)
      (hchanged : (e.expire key ttl now).1 = true) :
      Logs now e .pexpire [name, key, value]
        ⟨(e.expire key ttl now).2, integer 1,
          some [ascii "PEXPIREAT", key, pxatArgFromTtl now ttl]⟩
  | pexpireat {name key value : Bytes} {ms : ℤ} (hparse : parseI64 value = some ms)
      (hchanged : (e.expireAt key (timepointFromUnixMs ms) now).1 = true) :
      Logs now e .pexpireat [name, key, value]
        ⟨(e.expireAt key (timepointFromUnixMs ms) now).2, integer 1, some [name, key, value]⟩
  | persist {name key : Bytes} (hchanged : (e.persist key now).1 = true) :
      Logs now e .persist [name, key] ⟨(e.persist key now).2, integer 1, some [name, key]⟩
  | flushdb {name : Bytes} :
      Logs now e .flushdb [name] ⟨e.flushdb, ok, some [ascii "FLUSHDB"]⟩

section Cases

variable {now : TimePoint} {e : StorageEngine} {args : List Bytes}

/-- They have a record. -/
theorem Logs.recorded {name : CommandName} {eff : Effect} (h : Logs now e name args eff) :
    ∃ record, eff.record = some record := by
  cases h <;> exact ⟨_, rfl⟩

/-- No record, and at most expired entries dropped. -/
def Quiet (now : TimePoint) (e : StorageEngine) (eff : Effect) : Prop :=
  eff.record = none ∧ StorageEngine.Reclaimed now e eff.storage

/-- A command that leaves the engine alone. -/
theorem quiet_self (h : e.WF) (result : CommandResult) : Quiet now e { storage := e, result } :=
  ⟨rfl, .refl h⟩

/-- `GET` has no record and drops at most an expired entry. -/
theorem get_quiet (h : e.WF) : Quiet now e (get e now args) := by
  unfold get
  split
  · exact ⟨rfl, (StorageEngine.get_spec h _ now).2⟩
  · exact quiet_self h _

/-- `EXISTS` has no record and drops at most expired entries. -/
theorem existsCmd_quiet (h : e.WF) : Quiet now e (existsCmd e now args) := by
  unfold existsCmd
  split
  · exact ⟨rfl, StorageEngine.existsCount_reclaimed h _ now⟩
  · exact quiet_self h _

/-- `MGET` has no record and drops at most expired entries. -/
theorem mget_quiet (h : e.WF) : Quiet now e (mget e now args) := by
  unfold mget
  split
  · exact ⟨rfl, StorageEngine.mget_reclaimed h _ now⟩
  · exact quiet_self h _

/-- `STRLEN` has no record and drops at most an expired entry. -/
theorem strlenCmd_quiet (h : e.WF) : Quiet now e (strlenCmd e now args) := by
  unfold strlenCmd
  split
  · exact ⟨rfl, (StorageEngine.strlen_spec h _ now).2⟩
  · exact quiet_self h _

/-- `TTL` and `PTTL` have no record and drop at most an expired entry. -/
theorem ttlImpl_quiet (h : e.WF) (millis : Bool) : Quiet now e (ttlImpl millis e now args) := by
  unfold ttlImpl
  split
  · next key =>
    have hre := (StorageEngine.ttl_spec h key now).2
    split <;> next httl => exact ⟨rfl, by simpa only [httl] using hre⟩
  · exact quiet_self h _

/-- `DBSIZE` has no record and drops at most expired entries. -/
theorem dbsize_quiet (h : e.WF) : Quiet now e (dbsize e now args) := by
  unfold dbsize
  split
  · exact ⟨rfl, StorageEngine.scan_reclaimed h now⟩
  · exact quiet_self h _

/-- `INFO` has no record and drops at most expired entries. -/
theorem info_quiet {config : Config} {ctx : CommandContext} (h : ctx.storage.WF) :
    Quiet now ctx.storage (info config ctx now args) := by
  unfold info
  by_cases hlen : args.length > 2
  · rw [if_pos hlen]
    exact quiet_self h _
  · rw [if_neg hlen]
    have hre := StorageEngine.scan_reclaimed h now
    exact ⟨rfl, hre.trans (StorageEngine.scan_reclaimed hre.wf now)⟩

/-- `PING` leaves the engine alone. -/
theorem ping_quiet (h : e.WF) : Quiet now e (ping e args) := by
  unfold ping
  split <;> exact quiet_self h _

/-- `ECHO` leaves the engine alone. -/
theorem echo_quiet (h : e.WF) : Quiet now e (echo e args) := by
  unfold echo
  split <;> exact quiet_self h _

/-- `COMMAND` leaves the engine alone. -/
theorem commandCmd_quiet (h : e.WF) : Quiet now e (commandCmd e args) := by
  unfold commandCmd
  split <;> exact quiet_self h _

/-- `SET` is refused and leaves no record, or it stores and has one. -/
theorem set_cases (h : e.WF) :
    Quiet now e (set e now args) ∨ Logs now e .set args (set e now args) := by
  unfold set
  split
  · next name key value rest =>
    cases hparse : parseSetOptions rest {} with
    | error message => exact .inl (quiet_self h _)
    | ok options =>
      simp only
      by_cases hnot : (e.set key value (options.effectiveTtl now) options.condition now).1.code
          = .notSet
      · rw [if_pos hnot]
        exact .inl ⟨rfl, StorageEngine.set_reclaimed h (by simp [hnot])⟩
      · rw [if_neg hnot]
        by_cases hok : (e.set key value (options.effectiveTtl now) options.condition now).1.code
            = .ok
        · rw [if_neg (by simp [hok])]
          exact .inr (.set hparse hok)
        · rw [if_pos hok]
          exact .inl ⟨rfl, StorageEngine.set_reclaimed h hok⟩
  · exact .inl (quiet_self h _)

/-- `DEL` finds nothing and leaves no record, or it deletes and has one. -/
theorem del_cases (h : e.WF) :
    Quiet now e (del e now args) ∨ Logs now e .del args (del e now args) := by
  unfold del
  split
  · next name key keys =>
    simp only
    by_cases hdel : (e.delAll (key :: keys) now).1 = 0
    · rw [if_neg (by simp [hdel])]
      exact .inl ⟨rfl, (StorageEngine.delAll_spec h _ now).2 hdel⟩
    · rw [if_pos hdel]
      exact .inr (.del (by simp) hdel)
  · exact .inl (quiet_self h _)

/-- The one command that can change the storage without a record. -/
theorem mset_cases (h : e.WF) :
    Quiet now e (mset e now args) ∨ Logs now e .mset args (mset e now args) ∨
      ((mset e now args).result.isError = true ∧ (mset e now args).record = none) := by
  unfold mset
  by_cases hlen : args.length < 3 ∨ args.length % 2 = 0
  · rw [if_pos hlen]
    exact .inl (quiet_self h _)
  rw [if_neg hlen]
  cases args with
  | nil => simp at hlen
  | cons name pairs =>
    simp only [List.length_cons, List.drop_one, List.tail_cons] at hlen ⊢
    by_cases hok : (setPairs now pairs e).1 = .ok
    · rw [if_neg (by simp [hok])]
      exact .inr (.inl (.mset (by omega) (by omega) hok))
    · rw [if_pos hok]
      exact .inr (.inr ⟨rfl, rfl⟩)

/-- `APPEND` is refused and leaves no record, or it stores and has one. -/
theorem append_cases (h : e.WF) :
    Quiet now e (append e now args) ∨ Logs now e .append args (append e now args) := by
  unfold append
  split
  · next name key suffix =>
    simp only
    by_cases hok : (e.append key suffix now).1.code = .ok
    · rw [if_neg (by simp [hok])]
      exact .inr (.append hok)
    · rw [if_pos hok]
      exact .inl ⟨rfl, StorageEngine.append_reclaimed h hok⟩
  · exact .inl (quiet_self h _)

/-- `INCR` and `DECR`. -/
theorem incrDecr_cases (h : e.WF) (delta : ℤ) (now : TimePoint) (args : List Bytes) :
    Quiet now e (incrDecr delta e now args) ∨ ∃ name key, args = [name, key] ∧
      (e.incrBy key delta now).1.code = .ok ∧ incrDecr delta e now args
        = ⟨(e.incrBy key delta now).2, integer (e.incrBy key delta now).1.integer, some args⟩ := by
  unfold incrDecr
  split
  · next name key =>
    simp only
    by_cases hok : (e.incrBy key delta now).1.code = .ok
    · rw [if_neg (by simp [hok])]
      exact .inr ⟨name, key, rfl, hok, rfl⟩
    · rw [if_pos hok]
      exact .inl ⟨rfl, StorageEngine.incrBy_reclaimed h hok⟩
  · exact .inl (quiet_self h _)

/-- An `expire_at` that changes nothing drops at most an expired entry. -/
theorem expireAt_reclaimed (h : e.WF) {key : Bytes} {deadline : TimePoint}
    (hchanged : (e.expireAt key deadline now).1 = false) :
    StorageEngine.Reclaimed now e (e.expireAt key deadline now).2 := by
  obtain ⟨e', heq, hb⟩ := StorageEngine.expireAt_spec h key deadline now
  rw [heq] at hchanged ⊢
  have hv : e.keyspace.visible now key = none := by simpa using hchanged
  rw [hv] at hb
  exact StorageEngine.reclaimed_of_visible_none hv (by simpa [StorageEngine.expiredAt] using hb)

/-- A `persist` that changes nothing drops at most an expired entry. -/
theorem persist_reclaimed (h : e.WF) {key : Bytes} (hchanged : (e.persist key now).1 = false) :
    StorageEngine.Reclaimed now e (e.persist key now).2 := by
  obtain ⟨e', heq, hb⟩ := StorageEngine.persist_spec h key now
  rw [heq] at hchanged ⊢
  cases hv : e.keyspace.visible now key with
  | none =>
    rw [hv] at hb
    exact StorageEngine.reclaimed_of_visible_none hv hb
  | some x =>
    -- an item without a deadline stays as it is
    obtain ⟨value, expiry⟩ := x
    have hnone : expiry = none := by simpa [hv] using hchanged
    subst hnone
    rw [hv] at hb
    refine hb.reclaimed ?_
    rw [Option.map_some, ← (Keyspace.visible_eq_some.mp hv).1, Function.update_eq_self]
    exact Keyspace.Reclaims.refl _ _

/-- An `expire` that changes nothing drops at most an expired entry. -/
theorem expire_reclaimed (h : e.WF) {key : Bytes} {ttl : ℤ}
    (hchanged : (e.expire key ttl now).1 = false) :
    StorageEngine.Reclaimed now e (e.expire key ttl now).2 := by
  by_cases httl : ttl ≤ 0
  · obtain ⟨e', heq, hb⟩ := StorageEngine.expire_of_nonpos h key httl now
    rw [heq] at hchanged ⊢
    exact StorageEngine.reclaimed_of_visible_none (by simpa using hchanged) hb
  · rw [StorageEngine.expire_of_pos e key (by omega)] at hchanged ⊢
    exact expireAt_reclaimed h hchanged

/-- `EXPIRE` and `PEXPIRE`. -/
theorem expireImpl_cases (h : e.WF) (multiplier : ℤ) (commandName : Bytes) (now : TimePoint)
    (args : List Bytes) :
    Quiet now e (expireImpl multiplier commandName e now args) ∨
      ∃ name key value ttl, args = [name, key, value] ∧ parseTtlMs value multiplier = some ttl ∧
        (e.expire key ttl now).1 = true ∧ expireImpl multiplier commandName e now args
          = ⟨(e.expire key ttl now).2, integer 1,
              some [ascii "PEXPIREAT", key, pxatArgFromTtl now ttl]⟩ := by
  unfold expireImpl
  split
  · next name key value =>
    cases hparse : parseTtlMs value multiplier with
    | none => exact .inl (quiet_self h _)
    | some ttl =>
      cases hchanged : (e.expire key ttl now).1 with
      | false => exact .inl ⟨by simp [hchanged], expire_reclaimed h hchanged⟩
      | true => exact .inr ⟨name, key, value, ttl, rfl, hparse, hchanged, by simp [hchanged]⟩
  · exact .inl (quiet_self h _)

/-- `PEXPIREAT` changes nothing and leaves no record, or it sets a deadline and has one. -/
theorem pexpireat_cases (h : e.WF) :
    Quiet now e (pexpireat e now args) ∨ Logs now e .pexpireat args (pexpireat e now args) := by
  unfold pexpireat
  split
  · next name key value =>
    cases hparse : parseI64 value with
    | none => exact .inl (quiet_self h _)
    | some ms =>
      cases hchanged : (e.expireAt key (timepointFromUnixMs ms) now).1 with
      | false => exact .inl ⟨by simp [hchanged], expireAt_reclaimed h hchanged⟩
      | true => exact .inr (by simpa [hchanged] using Logs.pexpireat hparse hchanged)
  · exact .inl (quiet_self h _)

/-- `PERSIST` changes nothing and leaves no record, or it removes a deadline and has one. -/
theorem persistCmd_cases (h : e.WF) :
    Quiet now e (persistCmd e now args) ∨ Logs now e .persist args (persistCmd e now args) := by
  unfold persistCmd
  split
  · next name key =>
    cases hchanged : (e.persist key now).1 with
    | false => exact .inl ⟨by simp [hchanged], persist_reclaimed h hchanged⟩
    | true => exact .inr (by simpa [hchanged] using Logs.persist hchanged)
  · exact .inl (quiet_self h _)

/-- `FLUSHDB` with no arguments always has a record. -/
theorem flushdb_cases (h : e.WF) :
    Quiet now e (flushdb e args) ∨ Logs now e .flushdb args (flushdb e args) := by
  unfold flushdb
  split
  · exact .inr .flushdb
  · exact .inl (quiet_self h _)

/-- **Every command on data** either is quiet, or logs, or is an `MSET` that was refused. -/
theorem effect_cases {name : CommandName} {config : Config} {ctx : CommandContext} {eff : Effect}
    (h : ctx.storage.WF) (heff : effect name config ctx now args = some eff) :
    Quiet now ctx.storage eff ∨ Logs now ctx.storage name args eff ∨
      (name = .mset ∧ eff.result.isError = true ∧ eff.record = none) := by
  cases name <;> simp only [effect, Option.some.injEq, reduceCtorEq] at heff <;> subst heff
  case ping => exact .inl (ping_quiet h)
  case echo => exact .inl (echo_quiet h)
  case get => exact .inl (get_quiet h)
  case set => exact (set_cases h).imp_right .inl
  case del => exact (del_cases h).imp_right .inl
  case exist => exact .inl (existsCmd_quiet h)
  case mget => exact .inl (mget_quiet h)
  case mset => exact (mset_cases h).imp_right (Or.imp_right fun hr => ⟨rfl, hr⟩)
  case incr =>
    obtain hq | ⟨name, key, rfl, hok, heq⟩ := incrDecr_cases h 1 now args
    · exact .inl hq
    · exact .inr (.inl (heq ▸ .incr hok))
  case decr =>
    obtain hq | ⟨name, key, rfl, hok, heq⟩ := incrDecr_cases h (-1) now args
    · exact .inl hq
    · exact .inr (.inl (heq ▸ .decr hok))
  case append => exact (append_cases h).imp_right .inl
  case strlen => exact .inl (strlenCmd_quiet h)
  case expire =>
    obtain hq | ⟨name, key, value, ttl, rfl, hparse, hchanged, heq⟩ :=
      expireImpl_cases h 1000 (ascii "EXPIRE") now args
    · exact .inl hq
    · exact .inr (.inl (heq ▸ .expire hparse hchanged))
  case pexpire =>
    obtain hq | ⟨name, key, value, ttl, rfl, hparse, hchanged, heq⟩ :=
      expireImpl_cases h 1 (ascii "PEXPIRE") now args
    · exact .inl hq
    · exact .inr (.inl (heq ▸ .pexpire hparse hchanged))
  case pexpireat => exact (pexpireat_cases h).imp_right .inl
  case ttl => exact .inl (ttlImpl_quiet h false)
  case pttl => exact .inl (ttlImpl_quiet h true)
  case persist => exact (persistCmd_cases h).imp_right .inl
  case dbsize => exact .inl (dbsize_quiet h)
  case flushdb => exact (flushdb_cases h).imp_right .inl
  case info => exact .inl (info_quiet h)
  case bgsave => exact .inl (quiet_self h _)
  case command => exact .inl (commandCmd_quiet h)

/-! ## What is stored after a command -/

/-- The engine is well formed after the command. An item that it has written is under one of `keys`,
and has no deadline, or is one of a command that sets deadlines. -/
structure Writes (e e' : StorageEngine) (keys : List Bytes) (setsExpiry : Prop) : Prop where
  setup : e'.setup = e.setup
  wf : e'.WF
  items : ∀ k x, e'.keyspace k = some x → e.keyspace k = some x ∨
    (k ∈ keys ∧ (x.expiry = none ∨ (setsExpiry ∧ ∃ d, x.expiry = some (wrap64 d))))

namespace Writes

variable {e' e'' : StorageEngine} {keys : List Bytes} {p : Prop}

/-- Nothing is written. -/
theorem refl (h : e.WF) : Writes e e keys p := ⟨rfl, h, fun _ _ hx => .inl hx⟩

/-- Dropping expired items writes nothing. -/
theorem of_reclaimed (h : StorageEngine.Reclaimed now e e') : Writes e e' keys p := by
  refine ⟨h.setup, h.wf, fun k x hx => ?_⟩
  rcases h.reclaims k with hk | ⟨hk, -⟩
  · exact .inl (hk ▸ hx)
  · rw [hk] at hx
    cases hx

/-- One key is given an item, or loses its own. -/
theorem of_becomes {key : Bytes} {y : Option Item}
    (h : StorageEngine.Becomes e e' (Function.update e.keyspace key y)) (hkey : key ∈ keys)
    (hy : ∀ x, y = some x → x.expiry = none ∨ (p ∧ ∃ d, x.expiry = some (wrap64 d))) :
    Writes e e' keys p := by
  refine ⟨h.setup, h.wf, fun k x hx => ?_⟩
  rw [h.keyspace] at hx
  by_cases hk : k = key
  · subst hk
    rw [Function.update_self] at hx
    exact .inr ⟨hkey, hy x hx⟩
  · rw [Function.update_of_ne hk] at hx
    exact .inl hx

/-- More keys may be written. -/
theorem mono {more : List Bytes} (h : Writes e e' keys p) (hsub : ∀ k ∈ keys, k ∈ more) :
    Writes e e' more p :=
  ⟨h.setup, h.wf, fun k x hx => (h.items k x hx).imp_right fun hk => ⟨hsub k hk.1, hk.2⟩⟩

/-- A weaker condition on the deadlines. -/
theorem imp {q : Prop} (h : Writes e e' keys p) (hpq : p → q) : Writes e e' keys q :=
  ⟨h.setup, h.wf, fun k x hx => (h.items k x hx).imp_right
    fun hk => ⟨hk.1, hk.2.imp_right fun hd => ⟨hpq hd.1, hd.2⟩⟩⟩

/-- One write after the other. -/
theorem trans (h : Writes e e' keys p) (h' : Writes e' e'' keys p) : Writes e e'' keys p := by
  refine ⟨h'.setup.trans h.setup, h'.wf, fun k x hx => ?_⟩
  rcases h'.items k x hx with hx' | hx'
  · exact h.items k x hx'
  · exact .inr hx'

end Writes

/-- The loop of `MSET` writes its keys, without deadlines. -/
theorem setPairs_writes (h : e.WF) (pairs : List Bytes) {p : Prop} :
    Writes e (setPairs now pairs e).2 pairs p := by
  fun_induction setPairs now pairs e with
  | case1 key value rest e write e' hset hcode ih =>
    have hok : (e.set key value none .always now).1.code = .ok := by rw [hset]; exact hcode
    have hb := (StorageEngine.set_of_ok h hok).2.2
    rw [hset] at hb
    have hfirst : Writes e e' (key :: value :: rest) p := by
      refine .of_becomes hb (by simp) ?_
      rintro _ ⟨⟩
      exact .inl rfl
    exact hfirst.trans ((ih hb.wf).mono fun k hk => by simp [hk])
  | case2 key value rest e write e' hset hcode =>
    have hcode' : (e.set key value none .always now).1.code ≠ .ok := by rw [hset]; exact hcode
    have hre := StorageEngine.set_reclaimed h hcode'
    rw [hset] at hre
    exact .of_reclaimed hre
  | case3 pairs e => exact .refl h

/-- The commands that set deadlines. -/
def setsExpiry : CommandName → List Bytes → Bool
  | .set, _ :: _ :: _ :: rest =>
    match parseSetOptions rest {} with
    | .ok options => options.ttl.isSome || options.pxat.isSome
    | .error _ => false
  | .expire, _ | .pexpire, _ | .pexpireat, _ => true
  | _, _ => false

/-- A `SET` sets a deadline exactly if its options have one. -/
theorem setsExpiry_set {name key value : Bytes} {rest : List Bytes} {options : SetOptions}
    (hparse : parseSetOptions rest {} = .ok options) :
    setsExpiry .set (name :: key :: value :: rest)
      = (options.ttl.isSome || options.pxat.isSome) := by
  simp only [setsExpiry, hparse]

/-- `expire_at` writes its key, with its deadline. -/
theorem expireAt_writes (h : e.WF) {key : Bytes} {keys : List Bytes} (hkey : key ∈ keys) (d : ℤ) :
    Writes e (e.expireAt key (wrap64 d) now).2 keys True := by
  obtain ⟨e', heq, hb⟩ := StorageEngine.expireAt_spec h key (wrap64 d) now
  rw [heq]
  refine .of_becomes hb hkey fun x hx => ?_
  rw [StorageEngine.expiredAt] at hx
  split_ifs at hx
  obtain ⟨y, -, rfl⟩ := Option.map_eq_some_iff.mp hx
  exact .inr ⟨trivial, d, rfl⟩

/-- `expire` writes its key, with a deadline of the clock. -/
theorem expire_writes (h : e.WF) {key : Bytes} {keys : List Bytes} (hkey : key ∈ keys) (ttl : ℤ) :
    Writes e (e.expire key ttl now).2 keys True := by
  by_cases httl : ttl ≤ 0
  · obtain ⟨e', heq, hb⟩ := StorageEngine.expire_of_nonpos h key httl now
    rw [heq]
    exact .of_becomes hb hkey fun _ hx => nomatch hx
  · rw [StorageEngine.expire_of_pos e key (by omega), addMillis]
    exact expireAt_writes h hkey _

/-- **A command with a record** writes keys that are among its arguments, and deadlines only if it
is one that sets them. -/
theorem Logs.writes {name : CommandName} {eff : Effect} (h : e.WF)
    (hlogs : Logs now e name args eff) :
    Writes e eff.storage args.tail (setsExpiry name args = true) := by
  cases hlogs with
  | @set head key value rest options hparse hok =>
    refine .of_becomes (StorageEngine.set_of_ok h hok).2.2 (by simp) ?_
    rintro _ ⟨⟩
    cases httl : options.effectiveTtl now with
    | none => exact .inl rfl
    | some ttl =>
      refine .inr ⟨?_, _, rfl⟩
      rw [setsExpiry_set hparse]
      cases hpxat : options.pxat with
      | some pxat => simp
      | none =>
        rw [SetOptions.effectiveTtl, hpxat] at httl
        simp [httl]
  | @del head keys hkeys hdeleted =>
    have hb := (StorageEngine.delAll_spec h keys now).1
    refine ⟨hb.setup, hb.wf, fun k x hx => .inl ?_⟩
    rw [hb.keyspace, StorageEngine.without] at hx
    split_ifs at hx
    exact hx
  | mset => exact setPairs_writes h _
  | incr hok =>
    obtain ⟨n, -, -, hb⟩ := StorageEngine.incrBy_of_ok h hok
    refine .of_becomes hb (by simp) ?_
    rintro _ ⟨⟩
    exact .inl rfl
  | decr hok =>
    obtain ⟨n, -, -, hb⟩ := StorageEngine.incrBy_of_ok h hok
    refine .of_becomes hb (by simp) ?_
    rintro _ ⟨⟩
    exact .inl rfl
  | append hok =>
    refine .of_becomes (StorageEngine.append_of_ok h hok).2 (by simp) ?_
    rintro _ ⟨⟩
    exact .inl rfl
  | expire => exact (expire_writes h (by simp) _).imp fun _ => rfl
  | pexpire => exact (expire_writes h (by simp) _).imp fun _ => rfl
  | pexpireat => exact (expireAt_writes h (by simp) _).imp fun _ => rfl
  | @persist head key hchanged =>
    obtain ⟨e', heq, hb⟩ := StorageEngine.persist_spec h key now
    simp only [heq]
    refine .of_becomes hb (by simp) fun x hx => ?_
    obtain ⟨y, -, rfl⟩ := Option.map_eq_some_iff.mp hx
    exact .inl rfl
  | flushdb =>
    have hb := StorageEngine.flushdb_spec h
    refine ⟨hb.setup, hb.wf, fun k x hx => ?_⟩
    rw [hb.keyspace] at hx
    cases hx

/-- What any command on data leaves stored. -/
theorem effect_writes {name : CommandName} {config : Config} {ctx : CommandContext} {eff : Effect}
    (h : ctx.storage.WF) (heff : effect name config ctx now args = some eff) :
    Writes ctx.storage eff.storage args.tail (setsExpiry name args = true) := by
  rcases effect_cases h heff with ⟨-, hre⟩ | hlogs | ⟨rfl, -, -⟩
  · exact .of_reclaimed hre
  · exact hlogs.writes h
  · cases heff
    have hw : Writes ctx.storage (setPairs now args.tail ctx.storage).2 args.tail
        (setsExpiry .mset args = true) := setPairs_writes h _
    unfold mset
    rw [List.drop_one]
    by_cases hlen : args.length < 3 ∨ args.length % 2 = 0
    · rw [if_pos hlen]
      exact .refl h
    · rw [if_neg hlen]
      by_cases hok : (setPairs now args.tail ctx.storage).1 = .ok
      · simpa only [hok, ne_eq, not_true_eq_false, if_false] using hw
      · simpa only [hok, ne_eq, not_false_eq_true, if_true] using hw

end Cases

end Commands

end VeloxDb
