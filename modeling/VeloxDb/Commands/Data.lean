import VeloxDb.Protocol.Resp
import VeloxDb.Storage.Engine

/-!
# `commands/commands.cpp`: the commands on data

A command changes the storage, replies, and may have a record for the log. What it does up to that
point is an `Effect`; appending the record, and the error reply if that fails, is the same for all
of them and is left to the registry.

The clock is read once for a command: `now` is what every `Clock::now()` in it returns.
-/

namespace VeloxDb

open Decimal Util

/-- `CommandResult`: the bytes of the reply, and whether the connection ends behind them. -/
structure CommandResult where
  response : Bytes
  closeAfterWrite : Bool := false
deriving DecidableEq, Repr

/-- `result.response.rfind("-ERR", 0) == 0`. -/
def CommandResult.isError (result : CommandResult) : Bool :=
  (ascii "-ERR").isPrefixOf result.response

/-- What a command does before its record is appended. -/
structure Effect where
  storage : StorageEngine
  result : CommandResult
  record : Option (List Bytes) := none

namespace Commands

/-- The reply `+OK`. -/
def ok : CommandResult := ⟨Resp.simple (ascii "OK"), false⟩

/-- A reply that is an error. -/
def err (message : Bytes) : CommandResult := ⟨Resp.error message, false⟩

/-- A reply that is a number. -/
def integer (value : ℤ) : CommandResult := ⟨Resp.integer value, false⟩

/-- `wrong_args`: the complaint quotes the name as it was sent, in lower case. -/
def wrongArgs (args : List Bytes) : CommandResult :=
  err (ascii "wrong number of arguments for '" ++ toLowerAscii (args.headD []) ++ ascii "' command")

/-- `parse_ttl_ms`: the product is checked against overflow for positive values only. -/
def parseTtlMs (value : Bytes) (multiplier : ℤ) : Option ℤ := do
  let parsed ← parseI64 value
  if parsed > 0 ∧ parsed > int64Max / multiplier then none
  return wrap64 (parsed * multiplier)

/-- `pxat_arg_from_ttl`: the deadline in the record, in milliseconds of the epoch. -/
def pxatArgFromTtl (now : TimePoint) (ttl : ℤ) : Bytes := printInt (unixMs (addMillis now ttl))

/-! ## Strings -/

/-- `PING`. -/
def ping (storage : StorageEngine) (args : List Bytes) : Effect :=
  match args with
  | [_] => { storage, result := ⟨Resp.simple (ascii "PONG"), false⟩ }
  | [_, message] => { storage, result := ⟨Resp.bulk message, false⟩ }
  | _ => { storage, result := wrongArgs args }

/-- `ECHO`. -/
def echo (storage : StorageEngine) (args : List Bytes) : Effect :=
  match args with
  | [_, message] => { storage, result := ⟨Resp.bulk message, false⟩ }
  | _ => { storage, result := wrongArgs args }

/-- `GET`. -/
def get (storage : StorageEngine) (now : TimePoint) (args : List Bytes) : Effect :=
  match args with
  | [_, key] =>
    let (value, storage) := storage.get key now
    { storage, result := ⟨(value.map Resp.bulk).getD Resp.nullBulk, false⟩ }
  | _ => { storage, result := wrongArgs args }

/-- What the option loop of `SET` collects. -/
structure SetOptions where
  condition : SetCondition := .always
  ttl : Option ℤ := none
  pxat : Option ℤ := none
deriving DecidableEq, Repr

/-- The options with the value of an expiry option, if that is one. An `EX` or `PX` that does not
parse leaves no value and is no error. -/
def withExpiry (options : SetOptions) (option arg : Bytes) : Option SetOptions :=
  if option = ascii "EX" then some { options with ttl := parseTtlMs arg 1000 }
  else if option = ascii "PX" then some { options with ttl := parseTtlMs arg 1 }
  else
    (parseI64 arg).map fun parsed =>
      { options with
        pxat := some (if option = ascii "EXAT" then wrap64 (parsed * 1000) else parsed) }

/-- The options with the value of an expiry option, which has to be positive. -/
def setExpiry (options : SetOptions) (option arg : Bytes) : Except Bytes SetOptions :=
  match withExpiry options option arg with
  | none => .error (ascii "invalid expire time in SET")
  | some options =>
    if options.ttl.any (· ≤ 0) || options.pxat.any (· ≤ 0) then
      .error (ascii "invalid expire time in SET")
    else .ok options

/-- The option loop of `SET`. -/
def parseSetOptions : List Bytes → SetOptions → Except Bytes SetOptions
  | [], options => .ok options
  | arg :: rest, options =>
    let option := toUpperAscii arg
    if option = ascii "NX" then
      if options.condition = .xx then .error (ascii "syntax error")
      else parseSetOptions rest { options with condition := .nx }
    else if option = ascii "XX" then
      if options.condition = .nx then .error (ascii "syntax error")
      else parseSetOptions rest { options with condition := .xx }
    else if option = ascii "EX" ∨ option = ascii "PX" ∨ option = ascii "EXAT" ∨
        option = ascii "PXAT" then
      match rest with
      | [] => .error (ascii "syntax error")
      | value :: rest =>
        if options.ttl.isSome || options.pxat.isSome then .error (ascii "syntax error")
        else
          match setExpiry options option value with
          | .error message => .error message
          | .ok options => parseSetOptions rest options
    else .error (ascii "syntax error")

/-- The time to live that `SET` hands to the storage: a `PXAT` deadline is turned into one. -/
def SetOptions.effectiveTtl (options : SetOptions) (now : TimePoint) : Option ℤ :=
  match options.pxat with
  | some pxat => some (millisBetween (timepointFromUnixMs pxat) now)
  | none => options.ttl

/-- The record of a `SET`: conditions are dropped and a relative expiry becomes absolute. -/
def setRecord (key value : Bytes) (options : SetOptions) (now : TimePoint) : List Bytes :=
  [ascii "SET", key, value] ++
    match options.effectiveTtl now with
    | none => []
    | some ttl => [ascii "PXAT", (options.pxat.map printInt).getD (pxatArgFromTtl now ttl)]

/-- `SET`: the record holds the deadline as a point in time, not as a distance. -/
def set (storage : StorageEngine) (now : TimePoint) (args : List Bytes) : Effect :=
  match args with
  | _ :: key :: value :: rest =>
    match parseSetOptions rest {} with
    | .error message => { storage, result := err message }
    | .ok options =>
      let (write, storage) := storage.set key value (options.effectiveTtl now) options.condition now
      if write.code = .notSet then { storage, result := ⟨Resp.nullBulk, false⟩ }
      else if write.code ≠ .ok then { storage, result := err (storageWriteError write.code) }
      else { storage, result := ok, record := some (setRecord key value options now) }
  | _ => { storage, result := wrongArgs args }

/-- `DEL`: it is recorded if a key was there. -/
def del (storage : StorageEngine) (now : TimePoint) (args : List Bytes) : Effect :=
  match args with
  | _ :: key :: keys =>
    let (deleted, storage) := storage.delAll (key :: keys) now
    { storage, result := integer deleted, record := if deleted ≠ 0 then some args else none }
  | _ => { storage, result := wrongArgs args }

/-- `EXISTS`. -/
def existsCmd (storage : StorageEngine) (now : TimePoint) (args : List Bytes) : Effect :=
  match args with
  | _ :: key :: keys =>
    let (count, storage) := storage.existsCount (key :: keys) now
    { storage, result := integer count }
  | _ => { storage, result := wrongArgs args }

/-- `MGET`. -/
def mget (storage : StorageEngine) (now : TimePoint) (args : List Bytes) : Effect :=
  match args with
  | _ :: key :: keys =>
    let (values, storage) := storage.mget (key :: keys) now
    { storage, result := ⟨Resp.arrayOfBulk values, false⟩ }
  | _ => { storage, result := wrongArgs args }

/-- The loop of `MSET` over its pairs: it stops at the first pair that is refused. -/
def setPairs (now : TimePoint) : List Bytes → StorageEngine → WriteCode × StorageEngine
  | key :: value :: rest, storage =>
    match storage.set key value none .always now with
    | (write, storage) => if write.code = .ok then setPairs now rest storage else (write.code, storage)
  | _, storage => (.ok, storage)

/-- `MSET`: a refused pair ends it, with no record of the pairs before. -/
def mset (storage : StorageEngine) (now : TimePoint) (args : List Bytes) : Effect :=
  if args.length < 3 ∨ args.length % 2 = 0 then { storage, result := wrongArgs args }
  else
    let (code, storage) := setPairs now (args.drop 1) storage
    if code ≠ .ok then { storage, result := err (storageWriteError code) }
    else { storage, result := ok, record := some args }

/-- `INCR` and `DECR`. -/
def incrDecr (delta : ℤ) (storage : StorageEngine) (now : TimePoint) (args : List Bytes) : Effect :=
  match args with
  | [_, key] =>
    let (write, storage) := storage.incrBy key delta now
    if write.code ≠ .ok then { storage, result := err (storageWriteError write.code) }
    else { storage, result := integer write.integer, record := some args }
  | _ => { storage, result := wrongArgs args }

/-- `APPEND`. -/
def append (storage : StorageEngine) (now : TimePoint) (args : List Bytes) : Effect :=
  match args with
  | [_, key, suffix] =>
    let (write, storage) := storage.append key suffix now
    if write.code ≠ .ok then { storage, result := err (storageWriteError write.code) }
    else { storage, result := integer write.integer, record := some args }
  | _ => { storage, result := wrongArgs args }

/-- `STRLEN`. -/
def strlenCmd (storage : StorageEngine) (now : TimePoint) (args : List Bytes) : Effect :=
  match args with
  | [_, key] =>
    let (length, storage) := storage.strlen key now
    { storage, result := integer length }
  | _ => { storage, result := wrongArgs args }

/-! ## Expiry -/

/-- `EXPIRE` and `PEXPIRE`, logged as `PEXPIREAT`. -/
def expireImpl (multiplier : ℤ) (commandName : Bytes) (storage : StorageEngine) (now : TimePoint)
    (args : List Bytes) : Effect :=
  match args with
  | [_, key, value] =>
    match parseTtlMs value multiplier with
    | none => { storage, result := err (ascii "invalid expire time in " ++ commandName) }
    | some ttl =>
      let (changed, storage) := storage.expire key ttl now
      { storage, result := integer (if changed then 1 else 0),
        record := if changed then some [ascii "PEXPIREAT", key, pxatArgFromTtl now ttl] else none }
  | _ => { storage, result := wrongArgs args }

/-- `PEXPIREAT`. -/
def pexpireat (storage : StorageEngine) (now : TimePoint) (args : List Bytes) : Effect :=
  match args with
  | [_, key, value] =>
    match parseI64 value with
    | none => { storage, result := err (ascii "invalid expire time in PEXPIREAT") }
    | some when =>
      let (changed, storage) := storage.expireAt key (timepointFromUnixMs when) now
      { storage, result := integer (if changed then 1 else 0),
        record := if changed then some args else none }
  | _ => { storage, result := wrongArgs args }

/-- `TTL` and `PTTL`. -/
def ttlImpl (millis : Bool) (storage : StorageEngine) (now : TimePoint) (args : List Bytes) : Effect :=
  match args with
  | [_, key] =>
    match storage.ttl key now with
    | (.missing, storage) => { storage, result := integer (-2) }
    | (.noExpiry, storage) => { storage, result := integer (-1) }
    | (.hasExpiry ms, storage) =>
      { storage, result := integer (if millis then ms else (ms + 999).tdiv 1000) }
  | _ => { storage, result := wrongArgs args }

/-- `PERSIST`. -/
def persistCmd (storage : StorageEngine) (now : TimePoint) (args : List Bytes) : Effect :=
  match args with
  | [_, key] =>
    let (changed, storage) := storage.persist key now
    { storage, result := integer (if changed then 1 else 0),
      record := if changed then some args else none }
  | _ => { storage, result := wrongArgs args }

/-! ## The keyspace -/

/-- `DBSIZE`. -/
def dbsize (storage : StorageEngine) (now : TimePoint) (args : List Bytes) : Effect :=
  match args with
  | [_] =>
    let (size, storage) := storage.dbsize now
    { storage, result := integer size }
  | _ => { storage, result := wrongArgs args }

/-- `FLUSHDB`. -/
def flushdb (storage : StorageEngine) (args : List Bytes) : Effect :=
  match args with
  | [_] => { storage := storage.flushdb, result := ok, record := some [ascii "FLUSHDB"] }
  | _ => { storage, result := wrongArgs args }

end Commands

end VeloxDb
