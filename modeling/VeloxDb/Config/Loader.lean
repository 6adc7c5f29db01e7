import VeloxDb.Config
import VeloxDb.Util.Strings

/-!
# `config/config.cpp`: where the configuration comes from

A configuration starts from the defaults. A file, the environment and the command line then change
it, in this order, one assignment after another; the first assignment that is not accepted ends the
load. An assignment is a key and a text, and `Setting` are the keys there are.

The file system and the environment are functions from names to contents. What a failed load leaves
of the configuration is not modelled: `main` prints the status and exits.
-/

namespace VeloxDb

open Decimal Util

/-! ## `util::parse_byte_size` -/

namespace Util

/-- The suffixes in the order in which they are tried. -/
def byteSuffixes : List (Bytes × ℕ) :=
  [(ascii "kb", 1024), (ascii "k", 1024), (ascii "mb", 1024 * 1024), (ascii "m", 1024 * 1024),
    (ascii "gb", 1024 * 1024 * 1024), (ascii "g", 1024 * 1024 * 1024)]

/-- `strip_suffix`: what is left, and the factor. -/
def stripSuffix (value : Bytes) : Bytes × ℕ :=
  match byteSuffixes.find? fun p => p.1.isSuffixOf value with
  | some (suffix, factor) => (value.take (value.length - suffix.length), factor)
  | none => (value, 1)

/-- `parse_byte_size`: a count with a unit. -/
def parseByteSize (input : Bytes) : Option ℕ :=
  let value := toLowerAscii (trim input)
  if value = [] then none
  else
    match parseU64 (stripSuffix value).1 with
    | none => none
    | some parsed =>
      if parsed > uint64Max / (stripSuffix value).2 then none
      else some (parsed * (stripSuffix value).2)

end Util

/-! ## Settings -/

/-- The configuration with the two parts that can also be changed while the server runs. -/
structure LoadedConfig extends Config where
  loggingLevel : Bytes := ascii "info"
  metricsEnabled : Bool := true
deriving DecidableEq, Repr

/-- The keys that `apply_kv` knows. -/
inductive Setting
  | serverHost
  | serverPort
  | serverWorkers
  | serverMaxClients
  | storageShards
  | storageMaxMemory
  | storageMaxMemoryBytes
  | persistenceAofEnabled
  | persistenceAofPath
  | persistenceFsyncPolicy
  | persistenceSnapshotPath
  | persistenceManifestPath
  | expirationActiveEnabled
  | expirationIntervalMs
  | expirationSamplePerShard
  | loggingLevel
  | metricsEnabled
  | adminShutdownEnabled
  | protocolMaxRequestBytes
  | protocolMaxArrayElements
  | protocolMaxKeySize
  | protocolMaxValueSize
  | protocolMaxOutputBufferBytes
deriving DecidableEq, Repr

namespace Setting

/-- The name of a setting in the file and on the command line. -/
def key : Setting → Bytes
  | serverHost => ascii "server.host"
  | serverPort => ascii "server.port"
  | serverWorkers => ascii "server.workers"
  | serverMaxClients => ascii "server.max_clients"
  | storageShards => ascii "storage.shards"
  | storageMaxMemory => ascii "storage.max_memory"
  | storageMaxMemoryBytes => ascii "storage.max_memory_bytes"
  | persistenceAofEnabled => ascii "persistence.aof_enabled"
  | persistenceAofPath => ascii "persistence.aof_path"
  | persistenceFsyncPolicy => ascii "persistence.fsync_policy"
  | persistenceSnapshotPath => ascii "persistence.snapshot_path"
  | persistenceManifestPath => ascii "persistence.manifest_path"
  | expirationActiveEnabled => ascii "expiration.active_enabled"
  | expirationIntervalMs => ascii "expiration.interval_ms"
  | expirationSamplePerShard => ascii "expiration.sample_per_shard"
  | loggingLevel => ascii "logging.level"
  | metricsEnabled => ascii "metrics.enabled"
  | adminShutdownEnabled => ascii "admin.shutdown_enabled"
  | protocolMaxRequestBytes => ascii "protocol.max_request_bytes"
  | protocolMaxArrayElements => ascii "protocol.max_array_elements"
  | protocolMaxKeySize => ascii "protocol.max_key_size"
  | protocolMaxValueSize => ascii "protocol.max_value_size"
  | protocolMaxOutputBufferBytes => ascii "protocol.max_output_buffer_bytes"

/-- All settings, in the order in which `apply_kv` looks for the key. -/
def all : List Setting :=
  [serverHost, serverPort, serverWorkers, serverMaxClients, storageShards, storageMaxMemory,
    storageMaxMemoryBytes, persistenceAofEnabled, persistenceAofPath, persistenceFsyncPolicy,
    persistenceSnapshotPath, persistenceManifestPath, expirationActiveEnabled, expirationIntervalMs,
    expirationSamplePerShard, loggingLevel, metricsEnabled, adminShutdownEnabled,
    protocolMaxRequestBytes, protocolMaxArrayElements, protocolMaxKeySize, protocolMaxValueSize,
    protocolMaxOutputBufferBytes]

/-- The setting of that name. -/
def ofKey (key : Bytes) : Option Setting := all.find? fun s => s.key = key

end Setting

namespace ConfigLoader

/-! ## Texts of values -/

/-- `strip_quotes`: one pair of quotes goes. -/
def stripQuotes (value : Bytes) : Bytes :=
  let value := trim value
  if value.length ≥ 2 ∧ value.head? = some 34 ∧ value.getLast? = some 34 then
    (value.drop 1).take (value.length - 2)
  else value

/-- The loop of `remove_comment`; a hash between quotes starts no comment. -/
def removeCommentFrom : Bool → Bytes → Bytes
  | _, [] => []
  | inString, b :: rest =>
    let inString := if b = 34 then !inString else inString
    if !inString && b = 35 then [] else b :: removeCommentFrom inString rest

/-- `remove_comment`: what follows a `#` outside of quotes goes. -/
def removeComment (line : Bytes) : Bytes := removeCommentFrom false line

/-- `parse_u16`. -/
def parseU16 (value : Bytes) : Option ℕ := (parseU64 value).filter (· ≤ 2 ^ 16 - 1)

/-- `parse_size`. -/
def parseSize (value : Bytes) : Option ℕ := (parseU64 value).filter (· ≤ uint64Max)

/-- `parse_fsync_policy`: one of three words, in any case. -/
def parseFsyncPolicy (value : Bytes) : Option Bytes :=
  let policy := toLowerAscii value
  if policy ≠ ascii "always" ∧ policy ≠ ascii "everysec" ∧ policy ≠ ascii "no" then none
  else some policy

/-- What the setters share: the text is parsed and stored, or the message reports it. -/
def setParsed {α : Type} (parse : Bytes → Option α) (message : Bytes) (store : α → LoadedConfig)
    (value : Bytes) : Except Status LoadedConfig :=
  match parse value with
  | none => .error (.invalidArgument message)
  | some a => .ok (store a)

/-- A setting of 16 bits, or the complaint that names it. -/
def setU16 (store : ℕ → LoadedConfig) (value name : Bytes) : Except Status LoadedConfig :=
  setParsed parseU16 (ascii "invalid uint16 value for " ++ name) store value

/-- A count, or the complaint that names the setting. -/
def setSize (store : ℕ → LoadedConfig) (value name : Bytes) : Except Status LoadedConfig :=
  setParsed parseSize (ascii "invalid size value for " ++ name) store value

/-- A flag, or the complaint that names the setting. -/
def setBool (store : Bool → LoadedConfig) (value name : Bytes) : Except Status LoadedConfig :=
  setParsed parseBool (ascii "invalid bool value for " ++ name) store value

/-- A size with a unit, or the complaint that names the setting. -/
def setBytes (store : ℕ → LoadedConfig) (value name : Bytes) : Except Status LoadedConfig :=
  setParsed parseByteSize (ascii "invalid byte size for " ++ name) store value

/-! ## `apply_kv` -/

/-- The branch of `apply_kv` for a setting. -/
def assign (c : LoadedConfig) (value : Bytes) (s : Setting) : Except Status LoadedConfig :=
  match s with
  | .serverHost => .ok { c with server.host := value }
  | .serverPort => setU16 (fun n => { c with server.port := n }) value s.key
  | .serverWorkers => setSize (fun n => { c with server.workers := n }) value s.key
  | .serverMaxClients => setSize (fun n => { c with server.maxClients := n }) value s.key
  | .storageShards => setSize (fun n => { c with storage.shards := n }) value s.key
  | .storageMaxMemory => setBytes (fun n => { c with storage.maxMemoryBytes := n }) value s.key
  | .storageMaxMemoryBytes => setSize (fun n => { c with storage.maxMemoryBytes := n }) value s.key
  | .persistenceAofEnabled => setBool (fun b => { c with persistence.aofEnabled := b }) value s.key
  | .persistenceAofPath => .ok { c with persistence.aofPath := value }
  | .persistenceFsyncPolicy =>
    setParsed parseFsyncPolicy (ascii "fsync policy must be always, everysec, or no")
      (fun policy => { c with persistence.fsyncPolicy := policy }) value
  | .persistenceSnapshotPath => .ok { c with persistence.snapshotPath := value }
  | .persistenceManifestPath => .ok { c with persistence.manifestPath := value }
  | .expirationActiveEnabled => setBool (fun b => { c with expiration.activeEnabled := b }) value s.key
  | .expirationIntervalMs =>
    setParsed parseU64 (ascii "invalid interval") (fun n => { c with expiration.intervalMs := n }) value
  | .expirationSamplePerShard =>
    setSize (fun n => { c with expiration.samplePerShard := n }) value s.key
  | .loggingLevel => .ok { c with loggingLevel := toLowerAscii value }
  | .metricsEnabled => setBool (fun b => { c with metricsEnabled := b }) value s.key
  | .adminShutdownEnabled => setBool (fun b => { c with admin.shutdownEnabled := b }) value s.key
  | .protocolMaxRequestBytes =>
    setBytes (fun n => { c with protocol.maxRequestBytes := n }) value s.key
  | .protocolMaxArrayElements =>
    setSize (fun n => { c with protocol.maxArrayElements := n }) value s.key
  | .protocolMaxKeySize => setBytes (fun n => { c with protocol.maxKeySize := n }) value s.key
  | .protocolMaxValueSize => setBytes (fun n => { c with protocol.maxValueSize := n }) value s.key
  | .protocolMaxOutputBufferBytes =>
    setBytes (fun n => { c with protocol.maxOutputBufferBytes := n }) value s.key

/-- `apply_kv`: a setting is given a value. -/
def applyKv (c : LoadedConfig) (key value : Bytes) : Except Status LoadedConfig :=
  match Setting.ofKey key with
  | some s => assign c (stripQuotes value) s
  | none => .error (.invalidArgument (ascii "unknown config key: " ++ key))

/-! ## The file -/

/-- The lines that `std::getline` reads: a newline ends a line, and behind the last one there is no
further line. -/
def lines (content : Bytes) : List Bytes :=
  let parts := content.splitOn 10
  if parts.getLast? = some [] then parts.dropLast else parts

/-- What a line of the file can be. -/
inductive ConfigLine
  | blank
  | header (name : Bytes)
  | assignment (key value : Bytes)
  | malformed
deriving DecidableEq, Repr

/-- A line of the file, read as `load_file` does. -/
def readLine (line : Bytes) : ConfigLine :=
  let line := trim (removeComment line)
  if line = [] then .blank
  else if line.head? = some 91 ∧ line.getLast? = some 93 then
    .header (trim ((line.drop 1).take (line.length - 2)))
  else
    let (key, rest) := line.span (· ≠ 61)
    if rest = [] then .malformed else .assignment (trim key) (stripQuotes (rest.drop 1))

/-- The key of an assignment in a section. -/
def qualified (header key : Bytes) : Bytes :=
  if header = [] then key else header ++ ascii "." ++ key

/-- The loop of `load_file`, in the section `header`, at the line of this number. -/
def loadLines : List Bytes → Bytes → ℕ → LoadedConfig → Except Status LoadedConfig
  | [], _, _, c => .ok c
  | line :: rest, header, number, c =>
    match readLine line with
    | .blank => loadLines rest header (number + 1) c
    | .header name => loadLines rest name (number + 1) c
    | .malformed => .error (.invalidArgument (ascii "invalid config line " ++ print number))
    | .assignment key value =>
      match applyKv c (qualified header key) value with
      | .error status =>
        .error (.invalidArgument
          (ascii "config line " ++ print number ++ ascii ": " ++ status.message))
      | .ok c => loadLines rest header (number + 1) c

/-- `load_file`. -/
def loadFile (readFile : Bytes → Option Bytes) (c : LoadedConfig) (path : Bytes) :
    Except Status LoadedConfig :=
  match readFile path with
  | none => .error (.ioError (ascii "failed to open config file: " ++ path))
  | some content => loadLines (lines content) [] 1 c

/-! ## The environment -/

/-- The variables of the environment and their settings. -/
def envEntries : List (Bytes × Setting) :=
  [(ascii "VELOXDB_HOST", .serverHost), (ascii "VELOXDB_PORT", .serverPort),
    (ascii "VELOXDB_WORKERS", .serverWorkers), (ascii "VELOXDB_MAX_CLIENTS", .serverMaxClients),
    (ascii "VELOXDB_STORAGE_SHARDS", .storageShards), (ascii "VELOXDB_MAX_MEMORY", .storageMaxMemory),
    (ascii "VELOXDB_AOF_ENABLED", .persistenceAofEnabled),
    (ascii "VELOXDB_AOF_PATH", .persistenceAofPath),
    (ascii "VELOXDB_FSYNC_POLICY", .persistenceFsyncPolicy),
    (ascii "VELOXDB_SNAPSHOT_PATH", .persistenceSnapshotPath),
    (ascii "VELOXDB_MANIFEST_PATH", .persistenceManifestPath),
    (ascii "VELOXDB_LOG_LEVEL", .loggingLevel),
    (ascii "VELOXDB_SHUTDOWN_ENABLED", .adminShutdownEnabled),
    (ascii "VELOXDB_EXPIRATION_ACTIVE", .expirationActiveEnabled),
    (ascii "VELOXDB_EXPIRATION_INTERVAL_MS", .expirationIntervalMs)]

/-- The loop of `apply_env`. -/
def applyEnvEntries (getenv : Bytes → Option Bytes) :
    List (Bytes × Setting) → LoadedConfig → Except Status LoadedConfig
  | [], c => .ok c
  | (env, s) :: rest, c =>
    match getenv env with
    | none => applyEnvEntries getenv rest c
    | some value =>
      match applyKv c s.key value with
      | .error status => .error (.invalidArgument (env ++ ascii ": " ++ status.message))
      | .ok c => applyEnvEntries getenv rest c

/-- `apply_env`: the variables in their order. -/
def applyEnv (getenv : Bytes → Option Bytes) (c : LoadedConfig) : Except Status LoadedConfig :=
  applyEnvEntries getenv envEntries c

/-! ## The command line -/

/-- The options whose names are not those of their settings. -/
def aliases : List (Bytes × Setting) :=
  [(ascii "host", .serverHost), (ascii "port", .serverPort), (ascii "workers", .serverWorkers),
    (ascii "max-clients", .serverMaxClients), (ascii "storage-shards", .storageShards),
    (ascii "max-memory", .storageMaxMemory), (ascii "aof-enabled", .persistenceAofEnabled),
    (ascii "aof-path", .persistenceAofPath), (ascii "fsync-policy", .persistenceFsyncPolicy),
    (ascii "snapshot-path", .persistenceSnapshotPath),
    (ascii "manifest-path", .persistenceManifestPath), (ascii "log-level", .loggingLevel),
    (ascii "shutdown-enabled", .adminShutdownEnabled),
    (ascii "max-request-bytes", .protocolMaxRequestBytes),
    (ascii "max-key-size", .protocolMaxKeySize), (ascii "max-value-size", .protocolMaxValueSize),
    (ascii "max-output-buffer-bytes", .protocolMaxOutputBufferBytes),
    (ascii "expiration-interval-ms", .expirationIntervalMs),
    (ascii "expiration-active", .expirationActiveEnabled)]

/-- `apply_cli_pair`: an option of the command line. -/
def applyCliPair (c : LoadedConfig) (name value : Bytes) : Except Status LoadedConfig :=
  match aliases.find? fun p => p.1 = name with
  | none => .error (.invalidArgument (ascii "unknown option --" ++ name))
  | some (_, s) => applyKv c s.key value

/-- What the first pass over the arguments finds. -/
inductive Scan
  | help
  | pathMissing
  | path (path : Bytes)
deriving DecidableEq, Repr

/-- The first pass of `load`: it looks for help and for the file, also among the values of options. -/
def scanArgs : List Bytes → Bytes → Scan
  | [], path => .path path
  | arg :: rest, path =>
    if arg = ascii "--help" ∨ arg = ascii "-h" then .help
    else if arg = ascii "--config" then
      match rest with
      | [] => .pathMissing
      | path :: rest => scanArgs rest path
    else if (ascii "--config=").isPrefixOf arg then scanArgs rest (arg.drop (ascii "--config=").length)
    else scanArgs rest path

/-- The second pass. -/
def applyArgs : List Bytes → LoadedConfig → Except Status LoadedConfig
  | [], c => .ok c
  | arg :: rest, c =>
    if arg = ascii "--config" then
      match rest with
      | [] => .ok c
      | _ :: rest => applyArgs rest c
    else if (ascii "--config=").isPrefixOf arg then applyArgs rest c
    else if !(ascii "--").isPrefixOf arg then
      .error (.invalidArgument (ascii "unexpected positional argument: " ++ arg))
    else
      let (before, after) := arg.span (· ≠ 61)
      if after ≠ [] then
        match applyCliPair c (before.drop 2) (after.drop 1) with
        | .error status => .error status
        | .ok c => applyArgs rest c
      else
        match rest with
        | [] => .error (.invalidArgument (ascii "--" ++ arg.drop 2 ++ ascii " requires a value"))
        | value :: rest =>
          match applyCliPair c (arg.drop 2) value with
          | .error status => .error status
          | .ok c => applyArgs rest c

/-! ## `load` -/

/-- Where the program runs. -/
structure Surroundings where
  getenv : Bytes → Option Bytes
  readFile : Bytes → Option Bytes

/-- The last lines of `load`. -/
def atLeastOne (c : LoadedConfig) : LoadedConfig :=
  { c with
    server.workers := if c.server.workers = 0 then 1 else c.server.workers
    storage.shards := if c.storage.shards = 0 then 1 else c.storage.shards
    expiration.intervalMs := if c.expiration.intervalMs = 0 then 1 else c.expiration.intervalMs }

/-- How a load ends. -/
inductive LoadResult
  | help
  | failed (status : Status)
  | loaded (config : LoadedConfig)
deriving DecidableEq, Repr

/-- The defaults, and the file if there is one. -/
def fileLayer (sur : Surroundings) (path : Bytes) : Except Status LoadedConfig :=
  if path = [] then .ok {} else loadFile sur.readFile {} path

/-- The three layers, one after another. -/
def applyLayers (sur : Surroundings) (path : Bytes) (args : List Bytes) : Except Status LoadedConfig := do
  let c ← fileLayer sur path
  let c ← applyEnv sur.getenv c
  applyArgs args c

/-- `ConfigLoader::load`, on the arguments behind the name of the program. -/
def load (sur : Surroundings) (args : List Bytes) : LoadResult :=
  match scanArgs args [] with
  | .help => .help
  | .pathMissing => .failed (.invalidArgument (ascii "--config requires a path"))
  | .path path =>
    match applyLayers sur path args with
    | .error status => .failed status
    | .ok c => .loaded (atLeastOne c)

end ConfigLoader

end VeloxDb
