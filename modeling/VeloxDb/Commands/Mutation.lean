import VeloxDb.Commands.Effects

/-!
# Commands as programs

A write command takes the locks of the shards one after the other: `DEL` and `MSET` once for each
key, `FLUSHDB` once for each shard. Between two such calls the other threads may run. So for the
sake of interleavings a command is a program of storage calls, each of which is one step, and at its
end the reply and the record. Run without interruption, the program does what the command does
(`effect_eq_run`).

A command is refused at once, makes one call, or is a loop over keys, pairs or shards
(`shape_mutation`). If its calls have changed something it ends with a record (`honest_mutation`),
unless a later call of it is refused, as can happen to `MSET`; whether it is can be told in advance
(`grants`). A call that reports no change has only dropped expired entries (`perform_reclaimed`).
-/

namespace VeloxDb

open Decimal Util

/-- A call of a command on the storage, under the lock of one shard or, at the end of `flushdb`, on
the counter of the memory. -/
inductive StorageCall
  | set (key value : Bytes) (ttl : Option ℤ) (condition : SetCondition)
  | del (key : Bytes)
  | incrBy (key : Bytes) (delta : ℤ)
  | append (key suffix : Bytes)
  | expire (key : Bytes) (ttl : ℤ)
  | expireAt (key : Bytes) (expireAtTp : TimePoint)
  | persist (key : Bytes)
  | flushShard (i : ℕ)
  | releaseMemory (bytes : ℕ)

/-- What a call returns. -/
@[reducible] def StorageCall.Answer : StorageCall → Type
  | .set _ _ _ _ | .incrBy _ _ | .append _ _ => WriteResult
  | .del _ | .flushShard _ => ℕ
  | .expire _ _ | .expireAt _ _ | .persist _ => Bool
  | .releaseMemory _ => Unit

/-- The answer reports that something has been changed. -/
def StorageCall.changed : (c : StorageCall) → c.Answer → Bool
  | .set _ _ _ _, write | .incrBy _ _, write | .append _ _, write => write.code = .ok
  | .del _, deleted => deleted ≠ 0
  | .expire _ _, changed | .expireAt _ _, changed | .persist _, changed => changed
  | .flushShard _, _ | .releaseMemory _, _ => true

/-- A `set` without a condition has been refused. -/
def StorageCall.refused : (c : StorageCall) → c.Answer → Bool
  | .set _ _ _ .always, write => write.code ≠ .ok
  | _, _ => false

/-- The sizes and the memory limit let a `set` without a condition pass. -/
def StorageEngine.grants (e : StorageEngine) (now : TimePoint) : StorageCall → Bool
  | .set key value _ .always =>
    let live := (e.eraseIfExpiredLocked key now).2
    e.setup.keyValid key && e.setup.valueValid value &&
      (live.reserveMemory (entryMemory key value - live.keyMemory key)).isSome
  | _ => true

/-- What a call does to the engine, and its answer. -/
def StorageEngine.perform (e : StorageEngine) (now : TimePoint) :
    (c : StorageCall) → c.Answer × StorageEngine
  | .set key value ttl condition => e.set key value ttl condition now
  | .del key => e.del key now
  | .incrBy key delta => e.incrBy key delta now
  | .append key suffix => e.append key suffix now
  | .expire key ttl => e.expire key ttl now
  | .expireAt key expireAtTp => e.expireAt key expireAtTp now
  | .persist key => e.persist key now
  | .flushShard i => e.flushShard i
  | .releaseMemory bytes => ((), e.releaseMemory bytes)

/-- What is left to do of a command. -/
inductive Mutation
  | done (result : CommandResult) (record : Option (List Bytes))
  | call (c : StorageCall) (next : c.Answer → Mutation)

namespace Mutation

open Commands

/-- Run to the end without interruption. -/
def run (now : TimePoint) : Mutation → StorageEngine → Effect
  | .done result record, e => ⟨e, result, record⟩
  | .call c next, e => (next (e.perform now c).1).run now (e.perform now c).2

/-! ## The commands -/

/-- `SET` as calls on the engine. -/
def set (now : TimePoint) (args : List Bytes) : Mutation :=
  match args with
  | _ :: key :: value :: rest =>
    match parseSetOptions rest {} with
    | .error message => .done (err message) none
    | .ok options =>
      .call (.set key value (options.effectiveTtl now) options.condition) fun write =>
        if write.code = .notSet then .done ⟨Resp.nullBulk, false⟩ none
        else if write.code ≠ .ok then .done (err (storageWriteError write.code)) none
        else .done ok (some (setRecord key value options now))
  | _ => .done (wrongArgs args) none

/-- The loop of `del`. -/
def delAll (args : List Bytes) : List Bytes → ℕ → Mutation
  | [], deleted => .done (integer deleted) (if deleted ≠ 0 then some args else none)
  | key :: keys, deleted => .call (.del key) fun n => delAll args keys (deleted + n)

/-- `DEL` as calls on the engine. -/
def del (args : List Bytes) : Mutation :=
  match args with
  | _ :: key :: keys => delAll args (key :: keys) 0
  | _ => .done (wrongArgs args) none

/-- The loop of `mset`. -/
def setPairs (args : List Bytes) : List Bytes → Mutation
  | key :: value :: rest => .call (.set key value none .always) fun write =>
      if write.code = .ok then setPairs args rest
      else .done (err (storageWriteError write.code)) none
  | _ => .done ok (some args)

/-- `MSET` as calls on the engine. -/
def mset (args : List Bytes) : Mutation :=
  if args.length < 3 ∨ args.length % 2 = 0 then .done (wrongArgs args) none
  else setPairs args (args.drop 1)

/-- `INCR` and `DECR` as calls on the engine. -/
def incrDecr (delta : ℤ) (args : List Bytes) : Mutation :=
  match args with
  | [_, key] => .call (.incrBy key delta) fun write =>
      if write.code ≠ .ok then .done (err (storageWriteError write.code)) none
      else .done (integer write.integer) (some args)
  | _ => .done (wrongArgs args) none

/-- `APPEND` as calls on the engine. -/
def append (args : List Bytes) : Mutation :=
  match args with
  | [_, key, suffix] => .call (.append key suffix) fun write =>
      if write.code ≠ .ok then .done (err (storageWriteError write.code)) none
      else .done (integer write.integer) (some args)
  | _ => .done (wrongArgs args) none

/-- The end of a command that replies whether it has changed something. -/
def replyChanged (record : List Bytes) (changed : Bool) : Mutation :=
  .done (integer (if changed then 1 else 0)) (if changed then some record else none)

/-- `EXPIRE` and `PEXPIRE` as calls on the engine. -/
def expireImpl (multiplier : ℤ) (commandName : Bytes) (now : TimePoint) (args : List Bytes) : Mutation :=
  match args with
  | [_, key, value] =>
    match parseTtlMs value multiplier with
    | none => .done (err (ascii "invalid expire time in " ++ commandName)) none
    | some ttl =>
      .call (.expire key ttl) (replyChanged [ascii "PEXPIREAT", key, pxatArgFromTtl now ttl])
  | _ => .done (wrongArgs args) none

/-- `PEXPIREAT` as calls on the engine. -/
def pexpireat (args : List Bytes) : Mutation :=
  match args with
  | [_, key, value] =>
    match parseI64 value with
    | none => .done (err (ascii "invalid expire time in PEXPIREAT")) none
    | some when => .call (.expireAt key (timepointFromUnixMs when)) (replyChanged args)
  | _ => .done (wrongArgs args) none

/-- `PERSIST` as calls on the engine. -/
def persistCmd (args : List Bytes) : Mutation :=
  match args with
  | [_, key] => .call (.persist key) (replyChanged args)
  | _ => .done (wrongArgs args) none

/-- The loop of `flushdb` over the shards. -/
def flushShards : List ℕ → ℕ → Mutation
  | [], released => .call (.releaseMemory released) fun _ => .done ok (some [ascii "FLUSHDB"])
  | i :: shards, released => .call (.flushShard i) fun n => flushShards shards (released + n)

/-- `FLUSHDB` as calls on the engine. -/
def flushdb (shardCount : ℕ) (args : List Bytes) : Mutation :=
  match args with
  | [_] => flushShards (List.range shardCount) 0
  | _ => .done (wrongArgs args) none

end Mutation

/-- The program of a write command. -/
def Commands.mutation (name : CommandName) (shardCount : ℕ) (now : TimePoint) (args : List Bytes) :
    Option Mutation :=
  match name with
  | .set => some (.set now args)
  | .del => some (.del args)
  | .mset => some (.mset args)
  | .incr => some (.incrDecr 1 args)
  | .decr => some (.incrDecr (-1) args)
  | .append => some (.append args)
  | .expire => some (.expireImpl 1000 (ascii "EXPIRE") now args)
  | .pexpire => some (.expireImpl 1 (ascii "PEXPIRE") now args)
  | .pexpireat => some (.pexpireat args)
  | .persist => some (.persistCmd args)
  | .flushdb => some (.flushdb shardCount args)
  | _ => none

/-! ## Programs and effects -/

namespace Mutation

open Commands

variable {now : TimePoint} {e : StorageEngine} {args : List Bytes}

/-- A run is the first call and the run of the rest. -/
theorem run_call {c : StorageCall} {next : c.Answer → Mutation} {answer : c.Answer} {e' : StorageEngine}
    (h : e.perform now c = (answer, e')) : (call c next).run now e = (next answer).run now e' := by
  rw [run, h]

/-- Run alone, `SET` is the command. -/
theorem run_set : (set now args).run now e = Commands.set e now args := by
  match args with
  | _ :: key :: value :: rest =>
    simp only [set, Commands.set]
    cases parseSetOptions rest {} with
    | error message => rfl
    | ok options =>
      rcases hset : e.set key value (options.effectiveTtl now) options.condition now with ⟨write, e'⟩
      simp only [run_call (show e.perform now (.set _ _ _ _) = _ from hset), hset]
      split_ifs <;> rfl
  | [] | [_] | [_, _] => rfl

/-- Run alone, the calls of `DEL` are its loop. -/
theorem run_delAll (keys : List Bytes) (deleted : ℕ) :
    (delAll args keys deleted).run now e
      = ⟨(e.delAll keys now).2, integer (deleted + (e.delAll keys now).1 : ℕ),
          if deleted + (e.delAll keys now).1 ≠ 0 then some args else none⟩ := by
  induction keys generalizing e deleted with
  | nil => rfl
  | cons key keys ih =>
    rw [delAll, run, ih, StorageEngine.delAll_cons]
    simp only [StorageEngine.perform, Nat.add_assoc]

/-- Run alone, `DEL` is the command. -/
theorem run_del : (del args).run now e = Commands.del e now args := by
  match args with
  | _ :: key :: keys => simp only [del, Commands.del, run_delAll, Nat.zero_add]
  | [] | [_] => rfl

/-- Run alone, the calls of `MSET` are its loop. -/
theorem run_setPairs (pairs : List Bytes) :
    (setPairs args pairs).run now e =
      if (Commands.setPairs now pairs e).1 ≠ .ok then
        ⟨(Commands.setPairs now pairs e).2,
          err (storageWriteError (Commands.setPairs now pairs e).1), none⟩
      else ⟨(Commands.setPairs now pairs e).2, ok, some args⟩ := by
  fun_induction Commands.setPairs now pairs e with
  | case1 key value rest e write e' hset hcode ih =>
    rw [setPairs, run_call (show e.perform now (.set _ _ _ _) = _ from hset), if_pos hcode]
    exact ih
  | case2 key value rest e write e' hset hcode =>
    rw [setPairs, run_call (show e.perform now (.set _ _ _ _) = _ from hset), if_neg hcode,
      if_pos hcode]
    rfl
  | case3 pairs e hpairs =>
    have hdone : setPairs args pairs = .done ok (some args) := by
      unfold setPairs
      split
      · exact (hpairs _ _ _ rfl).elim
      · rfl
    rw [hdone]
    rfl

/-- Run alone, `MSET` is the command. -/
theorem run_mset : (mset args).run now e = Commands.mset e now args := by
  unfold mset Commands.mset
  split_ifs
  · rfl
  · rw [run_setPairs]

/-- Run alone, `INCR` and `DECR` are the commands. -/
theorem run_incrDecr (delta : ℤ) : (incrDecr delta args).run now e = Commands.incrDecr delta e now args := by
  match args with
  | [_, key] =>
    rcases hincr : e.incrBy key delta now with ⟨write, e'⟩
    simp only [incrDecr, Commands.incrDecr, hincr,
      run_call (show e.perform now (.incrBy _ _) = _ from hincr)]
    split_ifs <;> rfl
  | [] | [_] | _ :: _ :: _ :: _ => rfl

/-- Run alone, `APPEND` is the command. -/
theorem run_append : (append args).run now e = Commands.append e now args := by
  match args with
  | [_, key, suffix] =>
    rcases happend : e.append key suffix now with ⟨write, e'⟩
    simp only [append, Commands.append, happend,
      run_call (show e.perform now (.append _ _) = _ from happend)]
    split_ifs <;> rfl
  | [] | [_] | [_, _] | _ :: _ :: _ :: _ :: _ => rfl

/-- Run alone, `EXPIRE` and `PEXPIRE` are the commands. -/
theorem run_expireImpl (multiplier : ℤ) (commandName : Bytes) :
    (expireImpl multiplier commandName now args).run now e
      = Commands.expireImpl multiplier commandName e now args := by
  match args with
  | [_, key, value] =>
    simp only [expireImpl, Commands.expireImpl]
    cases parseTtlMs value multiplier <;> rfl
  | [] | [_] | [_, _] | _ :: _ :: _ :: _ :: _ => rfl

/-- Run alone, `PEXPIREAT` is the command. -/
theorem run_pexpireat : (pexpireat args).run now e = Commands.pexpireat e now args := by
  match args with
  | [_, key, value] =>
    simp only [pexpireat, Commands.pexpireat]
    cases parseI64 value <;> rfl
  | [] | [_] | [_, _] | _ :: _ :: _ :: _ :: _ => rfl

/-- Run alone, `PERSIST` is the command. -/
theorem run_persistCmd : (persistCmd args).run now e = Commands.persistCmd e now args := by
  match args with
  | [_, key] => rfl
  | [] | [_] | _ :: _ :: _ :: _ => rfl

/-- Run alone, the calls of `FLUSHDB` are its loop. -/
theorem run_flushShards (shards : List ℕ) (released : ℕ) :
    (flushShards shards released).run now e =
      let flushed := shards.foldl
        (fun (released, e) i => let (n, e) := e.flushShard i; (released + n, e)) (released, e)
      ⟨flushed.2.releaseMemory flushed.1, ok, some [ascii "FLUSHDB"]⟩ := by
  induction shards generalizing e released with
  | nil => rfl
  | cons i shards ih =>
    rw [flushShards, run, ih]
    rfl

/-- Run alone, `FLUSHDB` is the command. -/
theorem run_flushdb : (flushdb e.setup.shardCount args).run now e = Commands.flushdb e args := by
  match args with
  | [_] =>
    rw [flushdb, run_flushShards]
    rfl
  | [] | _ :: _ :: _ => rfl

/-- **A command is its program**, run without interruption. -/
theorem effect_eq_run {name : CommandName} {config : Config} {ctx : CommandContext} {m : Mutation}
    (h : mutation name ctx.storage.setup.shardCount now args = some m) :
    effect name config ctx now args = some (m.run now ctx.storage) := by
  cases name <;> simp only [mutation, Option.some.injEq, reduceCtorEq] at h <;> subst h
  case set => exact congrArg some run_set.symm
  case del => exact congrArg some run_del.symm
  case mset => exact congrArg some run_mset.symm
  case incr => exact congrArg some (run_incrDecr 1).symm
  case decr => exact congrArg some (run_incrDecr (-1)).symm
  case append => exact congrArg some run_append.symm
  case expire => exact congrArg some (run_expireImpl 1000 _).symm
  case pexpire => exact congrArg some (run_expireImpl 1 _).symm
  case pexpireat => exact congrArg some run_pexpireat.symm
  case persist => exact congrArg some run_persistCmd.symm
  case flushdb => exact congrArg some run_flushdb.symm

/-! ## The shape of a program -/

/-- The call of a command that makes one. -/
inductive OneCall : CommandName → List Bytes → StorageCall → Prop
  | set {head key value : Bytes} {rest : List Bytes} {ttl : Option ℤ} {condition : SetCondition} :
      OneCall .set (head :: key :: value :: rest) (.set key value ttl condition)
  | incr {head key : Bytes} : OneCall .incr [head, key] (.incrBy key 1)
  | decr {head key : Bytes} : OneCall .decr [head, key] (.incrBy key (-1))
  | append {head key suffix : Bytes} : OneCall .append [head, key, suffix] (.append key suffix)
  | expire {head key value : Bytes} {ttl : ℤ} : OneCall .expire [head, key, value] (.expire key ttl)
  | pexpire {head key value : Bytes} {ttl : ℤ} : OneCall .pexpire [head, key, value] (.expire key ttl)
  | pexpireat {head key value : Bytes} {deadline : TimePoint} :
      OneCall .pexpireat [head, key, value] (.expireAt key deadline)
  | persist {head key : Bytes} : OneCall .persist [head, key] (.persist key)

/-- A command is refused at once, makes one call, or is one of the three loops. -/
inductive Shape (shardCount : ℕ) : CommandName → List Bytes → Mutation → Prop
  | refused {name : CommandName} {args : List Bytes} (result : CommandResult) :
      Shape shardCount name args (.done result none)
  | single {name : CommandName} {args : List Bytes} {c : StorageCall} {next : c.Answer → Mutation}
      (hc : OneCall name args c)
      (hnext : ∀ answer, ∃ result record, next answer = .done result record) :
      Shape shardCount name args (.call c next)
  | del (head key : Bytes) (keys : List Bytes) :
      Shape shardCount .del (head :: key :: keys) (delAll (head :: key :: keys) (key :: keys) 0)
  | mset (head key value : Bytes) (rest : List Bytes) :
      Shape shardCount .mset (head :: key :: value :: rest)
        (setPairs (head :: key :: value :: rest) (key :: value :: rest))
  | flushdb (head : Bytes) : Shape shardCount .flushdb [head] (flushShards (List.range shardCount) 0)

/-- The end of a command that stores one value. -/
theorem ends_write {write : WriteResult} {result : CommandResult} {record : List Bytes} :
    ∃ result' record', (if write.code ≠ .ok then done (err (storageWriteError write.code)) none
      else done result (some record)) = done result' record' := by
  split_ifs <;> exact ⟨_, _, rfl⟩

/-- **Every program has its shape.** -/
theorem shape_mutation {name : CommandName} {shardCount : ℕ} {m : Mutation}
    (h : mutation name shardCount now args = some m) : Shape shardCount name args m := by
  cases name <;> simp only [mutation, Option.some.injEq, reduceCtorEq] at h <;> subst h
  case set =>
    match args with
    | _ :: key :: value :: rest =>
      simp only [set]
      cases parseSetOptions rest {} with
      | error message => exact .refused _
      | ok options =>
        refine .single .set fun write => ?_
        split_ifs <;> exact ⟨_, _, rfl⟩
    | [] | [_] | [_, _] => exact .refused _
  case del =>
    match args with
    | head :: key :: keys => exact .del head key keys
    | [] | [_] => exact .refused _
  case mset =>
    unfold mset
    split_ifs with hargs
    · exact .refused _
    · match args with
      | head :: key :: value :: rest => exact .mset head key value rest
      | [] | [_] | [_, _] => simp at hargs
  case incr =>
    match args with
    | [_, key] => exact .single .incr fun _ => ends_write
    | [] | [_] | _ :: _ :: _ :: _ => exact .refused _
  case decr =>
    match args with
    | [_, key] => exact .single .decr fun _ => ends_write
    | [] | [_] | _ :: _ :: _ :: _ => exact .refused _
  case append =>
    match args with
    | [_, key, suffix] => exact .single .append fun _ => ends_write
    | [] | [_] | [_, _] | _ :: _ :: _ :: _ :: _ => exact .refused _
  case expire =>
    match args with
    | [_, key, value] =>
      simp only [expireImpl]
      cases parseTtlMs value 1000 with
      | none => exact .refused _
      | some ttl => exact .single .expire fun _ => ⟨_, _, rfl⟩
    | [] | [_] | [_, _] | _ :: _ :: _ :: _ :: _ => exact .refused _
  case pexpire =>
    match args with
    | [_, key, value] =>
      simp only [expireImpl]
      cases parseTtlMs value 1 with
      | none => exact .refused _
      | some ttl => exact .single .pexpire fun _ => ⟨_, _, rfl⟩
    | [] | [_] | [_, _] | _ :: _ :: _ :: _ :: _ => exact .refused _
  case pexpireat =>
    match args with
    | [_, key, value] =>
      simp only [pexpireat]
      cases parseI64 value with
      | none => exact .refused _
      | some when => exact .single .pexpireat fun _ => ⟨_, _, rfl⟩
    | [] | [_] | [_, _] | _ :: _ :: _ :: _ :: _ => exact .refused _
  case persist =>
    match args with
    | [_, key] => exact .single .persist fun _ => ⟨_, _, rfl⟩
    | [] | [_] | _ :: _ :: _ :: _ => exact .refused _
  case flushdb =>
    match args with
    | [head] => exact .flushdb head
    | [] | _ :: _ :: _ => exact .refused _

/-- A command that makes no call has no record. -/
theorem record_of_done {name : CommandName} {setup : StorageSetup} {result : CommandResult}
    {record : Option (List Bytes)}
    (h : mutation name setup.shardCount now args = some (.done result record)) : record = none := by
  generalize hm : Mutation.done result record = m at h
  cases shape_mutation h with
  | refused => cases hm; rfl
  | single | del | mset => cases hm
  | flushdb =>
    obtain ⟨n, hn⟩ := Nat.exists_eq_succ_of_ne_zero setup.shardCount_pos.ne'
    rw [hn, List.range_succ_eq_map] at hm
    cases hm

/-! ## Changes and records -/

/-- If the calls made so far have changed something, or one of those to come does, the command ends
with a record; provided that no call is refused once there has been a change. -/
def Honest : Bool → Mutation → Prop
  | changed, .done _ record => changed = true → record.isSome = true
  | changed, .call c next => ∀ answer, (changed = true → c.refused answer = false) →
      (next answer).Honest (changed || c.changed answer)

/-- Nothing was changed, so nothing has to be recorded. -/
theorem honest_unchanged (result : CommandResult) (record : Option (List Bytes)) :
    (done result record).Honest false := nofun

/-- A command that ends with a record is honest. -/
theorem honest_record (changed : Bool) (result : CommandResult) (record : List Bytes) :
    (done result (some record)).Honest changed := fun _ => rfl

/-- `DEL` has a record if it has deleted a key. -/
theorem honest_delAll (args keys : List Bytes) {deleted : ℕ} {changed : Bool}
    (h : changed = true → deleted ≠ 0) : (delAll args keys deleted).Honest changed := by
  induction keys generalizing deleted changed with
  | nil =>
    intro hchanged
    rw [if_pos (h hchanged)]
    rfl
  | cons key keys ih =>
    intro n _
    refine ih fun hchanged => ?_
    rcases Bool.or_eq_true_iff.mp hchanged with hbefore | hnow
    · exact fun hsum => h hbefore (Nat.eq_zero_of_add_eq_zero_right hsum)
    · exact fun hsum => of_decide_eq_true hnow (Nat.eq_zero_of_add_eq_zero_left hsum)

/-- `MSET` has a record, unless a call of it is refused. -/
theorem honest_setPairs (args pairs : List Bytes) (changed : Bool) :
    (setPairs args pairs).Honest changed := by
  fun_induction setPairs args pairs generalizing changed with
  | case1 key value rest ih =>
    intro write hgranted
    beta_reduce
    split_ifs with hok
    · exact ih _
    · -- the first pair is refused: nothing has been stored
      have hrefused : (StorageCall.set key value none .always).refused write = true := decide_eq_true hok
      have hchanged : changed = false := by
        cases changed with
        | false => rfl
        | true => rw [hgranted rfl] at hrefused; cases hrefused
      rw [hchanged, Bool.false_or, show StorageCall.changed _ write = false from decide_eq_false hok]
      exact honest_unchanged _ _
  | case2 => exact honest_record _ _ _

/-- `FLUSHDB` always has a record. -/
theorem honest_flushShards (shards : List ℕ) (released : ℕ) (changed : Bool) :
    (flushShards shards released).Honest changed := by
  induction shards generalizing released changed with
  | nil => exact fun _ _ => honest_record _ _ _
  | cons i shards ih => exact fun n _ => ih _ _

/-- A command that replies whether it has changed something records if it has. -/
theorem honest_replyChanged (record : List Bytes) (changed : Bool) :
    (replyChanged record changed).Honest changed := by
  intro h
  rw [h]
  rfl

/-- The end of a command that stores one value. -/
theorem honest_write (write : WriteResult) (result : CommandResult) (record : List Bytes) :
    (if write.code ≠ .ok then done (err (storageWriteError write.code)) none
      else done result (some record)).Honest (false || decide (write.code = .ok)) := by
  split_ifs with hok
  · rw [Bool.false_or, decide_eq_false hok]
    exact honest_unchanged _ _
  · exact honest_record _ _ _

/-- `SET` has a record if it has stored. -/
theorem honest_set : (set now args).Honest false := by
  match args with
  | _ :: key :: value :: rest =>
    simp only [set]
    cases parseSetOptions rest {} with
    | error message => exact honest_unchanged _ _
    | ok options =>
      intro write _
      beta_reduce
      by_cases hnot : write.code = .notSet
      · -- the condition of the command failed, so nothing has been stored
        rw [if_pos hnot, Bool.false_or, show StorageCall.changed _ write = false from
          decide_eq_false (by rw [hnot]; exact nofun)]
        exact honest_unchanged _ _
      · rw [if_neg hnot]
        exact honest_write write _ _
  | [] | [_] | [_, _] => exact honest_unchanged _ _

/-- `INCR` and `DECR` have a record if they have stored. -/
theorem honest_incrDecr (delta : ℤ) : (incrDecr delta args).Honest false := by
  match args with
  | [_, key] => exact fun write _ => honest_write write _ _
  | [] | [_] | _ :: _ :: _ :: _ => exact honest_unchanged _ _

/-- `APPEND` has a record if it has stored. -/
theorem honest_append : (append args).Honest false := by
  match args with
  | [_, key, suffix] => exact fun write _ => honest_write write _ _
  | [] | [_] | [_, _] | _ :: _ :: _ :: _ :: _ => exact honest_unchanged _ _

/-- `EXPIRE` and `PEXPIRE` have a record if they have set a deadline. -/
theorem honest_expireImpl (multiplier : ℤ) (commandName : Bytes) :
    (expireImpl multiplier commandName now args).Honest false := by
  match args with
  | [_, key, value] =>
    simp only [expireImpl]
    cases parseTtlMs value multiplier with
    | none => exact honest_unchanged _ _
    | some ttl => exact fun changed _ => honest_replyChanged _ changed
  | [] | [_] | [_, _] | _ :: _ :: _ :: _ :: _ => exact honest_unchanged _ _

/-- `PEXPIREAT` has a record if it has set a deadline. -/
theorem honest_pexpireat : (pexpireat args).Honest false := by
  match args with
  | [_, key, value] =>
    simp only [pexpireat]
    cases parseI64 value with
    | none => exact honest_unchanged _ _
    | some when => exact fun changed _ => honest_replyChanged _ changed
  | [] | [_] | [_, _] | _ :: _ :: _ :: _ :: _ => exact honest_unchanged _ _

/-- **Every change has a record**, unless a call after it is refused. -/
theorem honest_mutation {name : CommandName} {shardCount : ℕ} {m : Mutation}
    (h : mutation name shardCount now args = some m) : m.Honest false := by
  cases name <;> simp only [mutation, Option.some.injEq, reduceCtorEq] at h <;> subst h
  case set => exact honest_set
  case del =>
    match args with
    | _ :: key :: keys => exact honest_delAll _ _ nofun
    | [] | [_] => exact honest_unchanged _ _
  case mset =>
    unfold mset
    split_ifs
    · exact honest_unchanged _ _
    · exact honest_setPairs _ _ _
  case incr => exact honest_incrDecr 1
  case decr => exact honest_incrDecr (-1)
  case append => exact honest_append
  case expire => exact honest_expireImpl 1000 _
  case pexpire => exact honest_expireImpl 1 _
  case pexpireat => exact honest_pexpireat
  case persist =>
    match args with
    | [_, key] => exact fun changed _ => honest_replyChanged _ changed
    | [] | [_] | _ :: _ :: _ :: _ => exact honest_unchanged _ _
  case flushdb =>
    match args with
    | [_] => exact honest_flushShards _ _ _
    | [] | _ :: _ :: _ => exact honest_unchanged _ _

end Mutation

/-- A call that is granted memory is not refused for it. -/
theorem StorageEngine.refused_of_grants {e : StorageEngine} {now : TimePoint} {c : StorageCall}
    (h : e.grants now c = true) : c.refused (e.perform now c).1 = false := by
  cases c with
  | set key value ttl condition =>
    cases condition with
    | always =>
      simp only [grants, Bool.and_eq_true] at h
      obtain ⟨⟨hkey, hvalue⟩, hroom⟩ := h
      obtain ⟨e', hreserve⟩ := Option.isSome_iff_exists.mp hroom
      -- an entry that does not grow reserves nothing
      have hreserved : (if entryMemory key value > (e.eraseIfExpiredLocked key now).2.keyMemory key then
          (e.eraseIfExpiredLocked key now).2.reserveMemory
            (entryMemory key value - (e.eraseIfExpiredLocked key now).2.keyMemory key)
          else some (e.eraseIfExpiredLocked key now).2) = some e' := by
        split_ifs with hgrows
        · exact hreserve
        · rw [Nat.sub_eq_zero_of_le (not_lt.mp hgrows), reserveMemory, if_pos (.inl rfl)] at hreserve
          exact hreserve
      have hok : (e.set key value ttl .always now).1.code = .ok := by
        simp only [set, storeEntry, hkey, hvalue, Bool.not_true, Bool.false_eq_true, if_false,
          reduceCtorEq, false_and, or_self, hreserved]
      exact decide_eq_false (not_not.mpr hok)
    | nx | xx => rfl
  | del | incrBy | append | expire | expireAt | persist | flushShard | releaseMemory => rfl

/-- A call that reports no change has dropped at most expired entries. -/
theorem StorageEngine.perform_reclaimed {e : StorageEngine} (h : e.WF) {now : TimePoint} {c : StorageCall}
    (hchanged : c.changed (e.perform now c).1 = false) : Reclaimed now e (e.perform now c).2 := by
  cases c with
  | set key value ttl condition => exact set_reclaimed h (of_decide_eq_false hchanged)
  | incrBy key delta => exact incrBy_reclaimed h (of_decide_eq_false hchanged)
  | append key suffix => exact append_reclaimed h (of_decide_eq_false hchanged)
  | del key =>
    obtain ⟨e', hdel, hb⟩ := del_spec h key now
    have hzero : (e.del key now).1 = 0 := not_not.mp (of_decide_eq_false hchanged)
    show Reclaimed now e (e.del key now).2
    rw [hdel] at hzero ⊢
    refine reclaimed_of_visible_none ?_ hb
    by_contra hv
    rw [if_pos (Option.isSome_iff_ne_none.mpr hv)] at hzero
    cases hzero
  | expire key ttl => exact Commands.expire_reclaimed h hchanged
  | expireAt key deadline => exact Commands.expireAt_reclaimed h hchanged
  | persist key => exact Commands.persist_reclaimed h hchanged
  | flushShard i => cases hchanged
  | releaseMemory bytes => cases hchanged

end VeloxDb
