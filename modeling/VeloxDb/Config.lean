import VeloxDb.Common.Decimal

/-!
# `config/config.h` and `util/status.h`

The configuration records with the source's defaults, and the status value that fallible operations
return.
-/

namespace VeloxDb

/-- `Status::Code`. -/
inductive StatusCode
  | ok
  | invalidArgument
  | notFound
  | resourceExhausted
  | ioError
  | protocolError
  | internalError
deriving DecidableEq, Repr

/-- `Status`: how an operation has ended, and what there is to say about it. -/
structure Status where
  code : StatusCode := .ok
  message : Bytes := []
deriving DecidableEq, Repr

namespace Status

/-- `Status::ok`. -/
def ok : Status := {}

/-- `Status::invalid_argument`. -/
def invalidArgument (message : Bytes) : Status := ⟨.invalidArgument, message⟩

/-- `Status::resource_exhausted`. -/
def resourceExhausted (message : Bytes) : Status := ⟨.resourceExhausted, message⟩

/-- `Status::io_error`. -/
def ioError (message : Bytes) : Status := ⟨.ioError, message⟩

/-- `Status::protocol_error`. -/
def protocolError (message : Bytes) : Status := ⟨.protocolError, message⟩

/-- `Status::internal_error`. -/
def internalError (message : Bytes) : Status := ⟨.internalError, message⟩

/-- `Status::operator bool`. -/
def isOk (s : Status) : Bool := s.code == .ok

@[simp] theorem isOk_ok : Status.ok.isOk = true := rfl

@[simp] theorem isOk_invalidArgument (m : Bytes) : (invalidArgument m).isOk = false := rfl

@[simp] theorem isOk_resourceExhausted (m : Bytes) : (resourceExhausted m).isOk = false := rfl

@[simp] theorem isOk_ioError (m : Bytes) : (ioError m).isOk = false := rfl

@[simp] theorem isOk_protocolError (m : Bytes) : (protocolError m).isOk = false := rfl

@[simp] theorem isOk_internalError (m : Bytes) : (internalError m).isOk = false := rfl

end Status

/-- The settings under `server`, with their defaults. -/
structure ServerConfig where
  host : Bytes := ascii "0.0.0.0"
  port : ℕ := 7379
  workers : ℕ := 4
  maxClients : ℕ := 10000
deriving DecidableEq, Repr

/-- The settings under `storage`, with their defaults. -/
structure StorageConfig where
  shards : ℕ := 64
  maxMemoryBytes : ℕ := 1024 * 1024 * 1024
deriving DecidableEq, Repr

/-- The settings under `persistence`, with their defaults. -/
structure PersistenceConfig where
  aofEnabled : Bool := true
  aofPath : Bytes := ascii "./data/veloxdb.aof"
  fsyncPolicy : Bytes := ascii "everysec"
  snapshotPath : Bytes := ascii "./data/veloxdb.snapshot"
  manifestPath : Bytes := ascii "./data/veloxdb.manifest"
deriving DecidableEq, Repr

/-- The settings under `expiration`, with their defaults. -/
structure ExpirationConfig where
  activeEnabled : Bool := true
  intervalMs : ℕ := 100
  samplePerShard : ℕ := 20
deriving DecidableEq, Repr

/-- The settings under `admin`, with their defaults. -/
structure AdminConfig where
  shutdownEnabled : Bool := false
deriving DecidableEq, Repr

/-- The settings under `protocol`, with their defaults. -/
structure ProtocolConfig where
  maxRequestBytes : ℕ := 64 * 1024 * 1024
  maxArrayElements : ℕ := 1024
  maxKeySize : ℕ := 512 * 1024
  maxValueSize : ℕ := 64 * 1024 * 1024
  maxOutputBufferBytes : ℕ := 64 * 1024 * 1024
deriving DecidableEq, Repr

/-- `logging.level` and `metrics.enabled` can be changed while the server runs, see
`CommandContext`. -/
structure Config where
  server : ServerConfig := {}
  storage : StorageConfig := {}
  persistence : PersistenceConfig := {}
  expiration : ExpirationConfig := {}
  admin : AdminConfig := {}
  protocol : ProtocolConfig := {}
deriving DecidableEq, Repr

end VeloxDb
