import VeloxDb.Commands.Data
import VeloxDb.Persistence.Snapshot

/-!
# The command registry

`execute` looks a command up by its upper-cased name and runs it in a context. A command on data
runs its `Effect` and then appends the record, unless the context replays a log or the log is not
open; if the append fails the reply is an error, although the storage has changed. `SAVE` and
`BGREWRITEAOF` are programs over the files themselves.
-/

namespace VeloxDb

open Decimal Util FileProgram Commands

/-! ## The context -/

/-- `LogLevel`. -/
inductive LogLevel
  | trace
  | debug
  | info
  | warn
  | error
  | off
deriving DecidableEq, Repr

/-- `parse_log_level`: a text that is no level is `info`. -/
def parseLogLevel (value : Bytes) : LogLevel :=
  let lower := toLowerAscii value
  if lower = ascii "trace" then .trace
  else if lower = ascii "debug" then .debug
  else if lower = ascii "warn" ∨ lower = ascii "warning" then .warn
  else if lower = ascii "error" then .error
  else if lower = ascii "off" then .off
  else .info

/-- `log_level_name`. -/
def logLevelName : LogLevel → Bytes
  | .trace => ascii "trace"
  | .debug => ascii "debug"
  | .info => ascii "info"
  | .warn => ascii "warn"
  | .error => ascii "error"
  | .off => ascii "off"

/-- The counters of `Metrics` that commands read. -/
structure Metrics where
  enabled : Bool := true
  uptimeSeconds : ℕ := 0
  connectedClients : ℕ := 0
  totalCommandsProcessed : ℕ := 0
  totalConnectionsReceived : ℕ := 0
  evictedKeys : ℕ := 0
deriving DecidableEq, Repr

/-- `CommandContext`, with the level of the process-wide logger. `hasRequestShutdown` says whether
the callback is set, `shutdownRequested` whether it was called. -/
structure CommandContext where
  storage : StorageEngine
  metrics : Metrics := {}
  logLevel : LogLevel := .info
  aof : Option Aof := none
  snapshot : Option SnapshotStore := none
  hasRequestShutdown : Bool := true
  shutdownRequested : Bool := false
  replay : Bool := false

namespace CommandContext

/-- `ctx.aof != nullptr && ctx.aof->enabled()`. -/
def aofEnabled (ctx : CommandContext) (config : Config) : Bool :=
  ctx.aof.any fun aof => aof.enabled config.persistence

end CommandContext

/-! ## Commands on the server -/

namespace Commands

/-- A flag as `CONFIG GET` and `INFO` print it. -/
def yesNo (b : Bool) : Bytes := if b then ascii "yes" else ascii "no"

/-- `INFO`. -/
def info (config : Config) (ctx : CommandContext) (now : TimePoint) (args : List Bytes) : Effect :=
  if args.length > 2 then { storage := ctx.storage, result := wrongArgs args }
  else
    let line (name value : Bytes) : Bytes := name ++ ascii ":" ++ value ++ Resp.crlf
    let (keys, storage) := ctx.storage.dbsize now
    let (expires, storage) := storage.expiresCount now
    let text :=
      ascii "# Server" ++ Resp.crlf ++
      line (ascii "veloxdb_version") (ascii "0.1.0") ++
      line (ascii "uptime_seconds") (print ctx.metrics.uptimeSeconds) ++
      line (ascii "tcp_port") (print config.server.port) ++
      line (ascii "connected_clients") (print ctx.metrics.connectedClients) ++ Resp.crlf ++
      ascii "# Memory" ++ Resp.crlf ++
      line (ascii "used_memory_estimate") (print ctx.storage.usedMemory) ++ Resp.crlf ++
      ascii "# Stats" ++ Resp.crlf ++
      line (ascii "total_commands_processed") (print ctx.metrics.totalCommandsProcessed) ++
      line (ascii "total_connections_received") (print ctx.metrics.totalConnectionsReceived) ++
      line (ascii "expired_keys") (print ctx.storage.expiredKeys) ++
      line (ascii "evicted_keys") (print ctx.metrics.evictedKeys) ++ Resp.crlf ++
      ascii "# Keyspace" ++ Resp.crlf ++
      line (ascii "db0") (ascii "keys=" ++ print keys ++ ascii ",expires=" ++ print expires) ++
      Resp.crlf ++
      ascii "# Persistence" ++ Resp.crlf ++
      line (ascii "aof_enabled") (if ctx.aofEnabled config then ascii "1" else ascii "0") ++
      line (ascii "aof_current_size") (print ((ctx.aof.map Aof.currentSize).getD 0)) ++
      line (ascii "aof_last_write_status")
        (if ctx.aof.all Aof.lastWriteOk then ascii "ok" else ascii "err")
    { storage, result := ⟨Resp.bulk text, false⟩ }

/-- The settings that `CONFIG GET` knows, with their values. -/
def configValues (config : Config) (ctx : CommandContext) : List (Bytes × Bytes) :=
  [(ascii "server.host", config.server.host),
   (ascii "server.port", print config.server.port),
   (ascii "server.workers", print config.server.workers),
   (ascii "server.max_clients", print config.server.maxClients),
   (ascii "storage.shards", print config.storage.shards),
   (ascii "storage.max_memory", print config.storage.maxMemoryBytes),
   (ascii "persistence.aof_enabled", yesNo config.persistence.aofEnabled),
   (ascii "persistence.aof_path", config.persistence.aofPath),
   (ascii "persistence.fsync_policy", config.persistence.fsyncPolicy),
   (ascii "persistence.snapshot_path", config.persistence.snapshotPath),
   (ascii "persistence.manifest_path", config.persistence.manifestPath),
   (ascii "expiration.active_enabled", yesNo config.expiration.activeEnabled),
   (ascii "expiration.interval_ms", print config.expiration.intervalMs),
   (ascii "logging.level", logLevelName ctx.logLevel),
   (ascii "metrics.enabled", yesNo ctx.metrics.enabled),
   (ascii "admin.shutdown_enabled", yesNo config.admin.shutdownEnabled),
   (ascii "protocol.max_request_bytes", print config.protocol.maxRequestBytes),
   (ascii "protocol.max_key_size", print config.protocol.maxKeySize),
   (ascii "protocol.max_value_size", print config.protocol.maxValueSize)]

/-- `CONFIG`; `CONFIG SET` changes the log level or the metrics switch. -/
def configCmd (config : Config) (ctx : CommandContext) (args : List Bytes) :
    CommandResult × CommandContext :=
  match args with
  | _ :: sub :: rest =>
    let sub := toUpperAscii sub
    if sub = ascii "GET" then
      match rest with
      | [pattern] =>
        let pattern := toLowerAscii pattern
        let matched := (configValues config ctx).filter fun pair =>
          pattern == ascii "*" || pattern == toLowerAscii pair.1
        (⟨Resp.arrayOfBulk (matched.flatMap fun pair => [some pair.1, some pair.2]), false⟩, ctx)
      | _ => (wrongArgs args, ctx)
    else if sub = ascii "SET" then
      match rest with
      | [key, value] =>
        let key := toLowerAscii key
        if key = ascii "logging.level" then (ok, { ctx with logLevel := parseLogLevel value })
        else if key = ascii "metrics.enabled" then
          match parseBool value with
          | none => (err (ascii "invalid bool value"), ctx)
          | some enabled => (ok, { ctx with metrics := { ctx.metrics with enabled } })
        else
          (err (ascii ("CONFIG SET only supports safe runtime values: " ++
            "logging.level, metrics.enabled")), ctx)
      | _ => (wrongArgs args, ctx)
    else (err (ascii "unsupported CONFIG subcommand"), ctx)
  | _ => (wrongArgs args, ctx)

/-- `SAVE`. -/
def save (env : Env) (order : IterationOrder) (now : TimePoint) (ctx : CommandContext)
    (args : List Bytes) : FileProgram FileName (CommandResult × CommandContext) := do
  if args.length ≠ 1 then return (wrongArgs args, ctx)
  match ctx.snapshot with
  | none => return (err (ascii "snapshot store is not configured"), ctx)
  | some store =>
    let (status, storage) ← SnapshotStore.save env store order now ctx.storage ctx.aof
    let ctx := { ctx with storage }
    if !status.isOk then return (err status.message, ctx)
    return (ok, ctx)

/-- `BGSAVE`, which is not implemented. -/
def bgsave (args : List Bytes) : CommandResult :=
  if args.length ≠ 1 then wrongArgs args
  else err (ascii "BGSAVE is planned; use SAVE for the MVP snapshot path")

/-- `BGREWRITEAOF`. -/
def bgrewriteaof (env : Env) (order : IterationOrder) (now : TimePoint) (ctx : CommandContext)
    (args : List Bytes) : FileProgram FileName (CommandResult × CommandContext) := do
  if args.length ≠ 1 then return (wrongArgs args, ctx)
  match ctx.aof.filter fun aof => aof.enabled env.config.persistence with
  | none => return (err (ascii "AOF is disabled"), ctx)
  | some aof =>
    let (status, aof, storage) ← Aof.rewrite env order now aof ctx.storage
    let ctx := { ctx with storage, aof := some aof }
    if !status.isOk then return (err (ascii "AOF rewrite failed: " ++ status.message), ctx)
    return (ok, ctx)

/-- `SHUTDOWN`: the log is synced first. -/
def shutdown (env : Env) (ctx : CommandContext) (args : List Bytes) :
    FileProgram FileName (CommandResult × CommandContext) := do
  if args.length > 2 then return (wrongArgs args, ctx)
  if !env.config.admin.shutdownEnabled then
    return (err (ascii "SHUTDOWN is disabled by configuration"), ctx)
  match ctx.aof with
  | none => pure ()
  | some aof => discard (aof.sync env.config.persistence)
  return (⟨Resp.simple (ascii "OK"), true⟩, { ctx with
    shutdownRequested := ctx.shutdownRequested || ctx.hasRequestShutdown })

end Commands

/-! ## The registry -/

/-- The registered commands, in the order of their registration. -/
inductive CommandName
  | ping | echo | get | set | del | exist | mget | mset | incr | decr | append | strlen
  | expire | pexpire | pexpireat | ttl | pttl | persist | dbsize | flushdb | info | config
  | save | bgsave | bgrewriteaof | shutdown | command
deriving DecidableEq, Repr

namespace CommandName

/-- The name that a command is registered under. -/
def text : CommandName → Bytes
  | .ping => ascii "PING"
  | .echo => ascii "ECHO"
  | .get => ascii "GET"
  | .set => ascii "SET"
  | .del => ascii "DEL"
  | .exist => ascii "EXISTS"
  | .mget => ascii "MGET"
  | .mset => ascii "MSET"
  | .incr => ascii "INCR"
  | .decr => ascii "DECR"
  | .append => ascii "APPEND"
  | .strlen => ascii "STRLEN"
  | .expire => ascii "EXPIRE"
  | .pexpire => ascii "PEXPIRE"
  | .pexpireat => ascii "PEXPIREAT"
  | .ttl => ascii "TTL"
  | .pttl => ascii "PTTL"
  | .persist => ascii "PERSIST"
  | .dbsize => ascii "DBSIZE"
  | .flushdb => ascii "FLUSHDB"
  | .info => ascii "INFO"
  | .config => ascii "CONFIG"
  | .save => ascii "SAVE"
  | .bgsave => ascii "BGSAVE"
  | .bgrewriteaof => ascii "BGREWRITEAOF"
  | .shutdown => ascii "SHUTDOWN"
  | .command => ascii "COMMAND"

/-- The registered commands. -/
def all : List CommandName :=
  [.ping, .echo, .get, .set, .del, .exist, .mget, .mset, .incr, .decr, .append, .strlen, .expire,
   .pexpire, .pexpireat, .ttl, .pttl, .persist, .dbsize, .flushdb, .info, .config, .save, .bgsave,
   .bgrewriteaof, .shutdown, .command]

/-- `commands_.find(to_upper_ascii(name))`. -/
def find (name : Bytes) : Option CommandName := all.find? fun c => c.text == toUpperAscii name

end CommandName

/-- `std::string` order, on the names of commands. -/
def bytesLe : Bytes → Bytes → Bool
  | [], _ => true
  | _ :: _, [] => false
  | a :: s, b :: t => a < b || (a == b && bytesLe s t)

/-- The names in sorted order. -/
def commandNames : List Bytes := (CommandName.all.map CommandName.text).mergeSort bytesLe

namespace Commands

/-- `COMMAND`: the names in order. -/
def commandCmd (storage : StorageEngine) (args : List Bytes) : Effect :=
  match args with
  | [_] => { storage, result := ⟨Resp.arrayOfBulk (commandNames.map some), false⟩ }
  | _ => { storage, result := wrongArgs args }

/-- The commands that are an `Effect` on the storage. -/
def effect (name : CommandName) (config : Config) (ctx : CommandContext) (now : TimePoint)
    (args : List Bytes) : Option Effect :=
  match name with
  | .ping => some (ping ctx.storage args)
  | .echo => some (echo ctx.storage args)
  | .get => some (get ctx.storage now args)
  | .set => some (set ctx.storage now args)
  | .del => some (del ctx.storage now args)
  | .exist => some (existsCmd ctx.storage now args)
  | .mget => some (mget ctx.storage now args)
  | .mset => some (mset ctx.storage now args)
  | .incr => some (incrDecr 1 ctx.storage now args)
  | .decr => some (incrDecr (-1) ctx.storage now args)
  | .append => some (append ctx.storage now args)
  | .strlen => some (strlenCmd ctx.storage now args)
  | .expire => some (expireImpl 1000 (ascii "EXPIRE") ctx.storage now args)
  | .pexpire => some (expireImpl 1 (ascii "PEXPIRE") ctx.storage now args)
  | .pexpireat => some (pexpireat ctx.storage now args)
  | .ttl => some (ttlImpl false ctx.storage now args)
  | .pttl => some (ttlImpl true ctx.storage now args)
  | .persist => some (persistCmd ctx.storage now args)
  | .dbsize => some (dbsize ctx.storage now args)
  | .flushdb => some (flushdb ctx.storage args)
  | .info => some (info config ctx now args)
  | .bgsave => some { storage := ctx.storage, result := bgsave args }
  | .command => some (commandCmd ctx.storage args)
  | .config | .save | .bgrewriteaof | .shutdown => none

/-- The commands that are not an `Effect`. -/
def special (name : CommandName) (env : Env) (order : IterationOrder) (now : TimePoint)
    (ctx : CommandContext) (args : List Bytes) : FileProgram FileName (CommandResult × CommandContext) :=
  match name with
  | .save => save env order now ctx args
  | .bgrewriteaof => bgrewriteaof env order now ctx args
  | .shutdown => shutdown env ctx args
  | _ => return configCmd env.config ctx args

end Commands

namespace CommandRegistry

/-- `persist`, with the error reply of a failed append. -/
def persist (config : Config) (effect : Effect) (ctx : CommandContext) :
    FileProgram FileName (CommandResult × CommandContext) := do
  let ctx := { ctx with storage := effect.storage }
  match effect.record, ctx.aof with
  | some record, some aof =>
    if ctx.replay || !aof.enabled config.persistence then return (effect.result, ctx)
    let (status, aof) ← aof.append config.persistence record
    let ctx := { ctx with aof := some aof }
    if !status.isOk then
      return (err (ascii "persistence append failed: " ++ status.message), ctx)
    return (effect.result, ctx)
  | _, _ => return (effect.result, ctx)

/-- `CommandRegistry::execute` with the default commands. -/
def execute (env : Env) (order : IterationOrder) (now : TimePoint) (ctx : CommandContext)
    (args : List Bytes) : FileProgram FileName (CommandResult × CommandContext) := do
  match args with
  | [] => return (⟨Resp.error (ascii "empty command"), false⟩, ctx)
  | name :: _ =>
    match CommandName.find name with
    | none => return (⟨Resp.error (ascii "unknown command '" ++ name ++ ascii "'"), false⟩, ctx)
    | some found =>
      match Commands.effect found env.config ctx now args with
      | some effect => persist env.config effect ctx
      | none => Commands.special found env order now ctx args

end CommandRegistry

end VeloxDb
