import VeloxDb.Persistence.Aof

/-!
# `persistence/snapshot.cpp`: snapshots and the manifest

`SAVE` writes the live entries to the snapshot and then, with the log open, a manifest that names
the length the log had. Each file is written to a temporary one and renamed into place, so there are
two commit points: the rename of the snapshot and the rename of the manifest.

Recovery reads the manifest; if it names these files and an offset within the log, the snapshot is
loaded and the log is replayed from the offset, otherwise the log is replayed from its start.
-/

namespace VeloxDb

open Decimal Util Resp FileProgram

/-- What a manifest says: the two files, and how much of the log the snapshot has. -/
structure Manifest where
  snapshotPath : Bytes
  aofPath : Bytes
  aofOffset : ℕ
  createdUnixMs : ℤ
deriving DecidableEq, Repr

/-- The paths of the store and the limits it reads with. -/
structure SnapshotStore where
  path : Bytes
  manifestPath : Bytes
  manifestFile : FileName
  manifestTmpFile : FileName
  protocol : ProtocolConfig
deriving DecidableEq, Repr

/-- The constructor, which falls back to a manifest next to the snapshot. -/
def SnapshotStore.new (path : Bytes) (protocol : ProtocolConfig) (manifestPath : Bytes) :
    SnapshotStore :=
  if manifestPath = [] then
    ⟨path, defaultManifestPath path, .defaultManifest, .defaultManifestTmp, protocol⟩
  else ⟨path, manifestPath, .manifest, .manifestTmp, protocol⟩

/-- The store that `main` constructs. -/
def SnapshotStore.ofConfig (config : Config) : SnapshotStore :=
  .new config.persistence.snapshotPath config.protocol config.persistence.manifestPath

/-- The manifest that the store of `main` uses, and where it is. -/
theorem SnapshotStore.path_manifestFile (config : Config) (pid : ℕ) :
    (ofConfig config).manifestFile ∈ FileName.used config.persistence ∧
      (ofConfig config).manifestFile.path config.persistence pid = (ofConfig config).manifestPath := by
  by_cases hpath : config.persistence.manifestPath = []
  · simp [ofConfig, new, FileName.used, FileName.path, hpath]
  · simp [ofConfig, new, FileName.used, FileName.path, hpath]

/-! ## Writing -/

/-- The lines of a manifest. -/
def manifestText (env : Env) (m : Manifest) : Bytes :=
  ascii "format_version=1\n" ++
  ascii "snapshot_path=" ++ env.lexicallyNormal m.snapshotPath ++ [10] ++
  ascii "aof_path=" ++ env.lexicallyNormal m.aofPath ++ [10] ++
  ascii "aof_offset=" ++ print m.aofOffset ++ [10] ++
  ascii "created_unix_ms=" ++ printInt m.createdUnixMs ++ [10]

/-- The entry loop on the snapshot stream, up to the first record that puts it into a bad state. -/
def streamRecords (fd : ℕ) : List (List Bytes) → FileProgram FileName Bool
  | [] => return true
  | record :: rest => do
    if ← streamWrite fd (encodeCommand record) then streamRecords fd rest else return false

namespace SnapshotStore

variable (env : Env) (store : SnapshotStore)

/-- The end of both writers: rename the temporary file into place, or remove it. -/
def install (tmp name : FileName) (message : Bytes) : FileProgram FileName Status := do
  match ← renameFile tmp name with
  | .ok () => return .ok
  | .error reason =>
    discard (removeFile tmp)
    return .ioError (message ++ reason)

/-- `save_snapshot_file`. -/
def saveSnapshotFile (order : IterationOrder) (now : TimePoint) (storage : StorageEngine) :
    FileProgram FileName (Status × StorageEngine) := do
  if !pathIsSafe store.path then
    return (.invalidArgument (ascii "invalid snapshot path"), storage)
  let status ← ensureParentDir (env.parentPath store.path) fun reason =>
    ascii "failed to create snapshot directory: " ++ reason
  if !status.isOk then return (status, storage)
  match ← call fun fs => fs.openTruncate .snapshotTmp with
  | .error _ => return (.ioError (ascii "failed to open snapshot temp file"), storage)
  | .ok fd =>
    let (entries, storage) := storage.snapshot now
    if !(← streamRecords fd ((order.arrange entries).flatMap snapshotRecords)) then
      return (.ioError (ascii "failed writing snapshot"), storage)
    match ← touch with
    | .error _ => return (.ioError (ascii "failed closing snapshot"), storage)
    | .ok () =>
      let status ← install .snapshotTmp .snapshot (ascii "failed to install snapshot: ")
      return (status, storage)

/-- `write_manifest`. -/
def writeManifest (manifest : Manifest) : FileProgram FileName Status := do
  if !pathIsSafe store.manifestPath then
    return .invalidArgument (ascii "invalid snapshot manifest path")
  let status ← ensureParentDir (env.parentPath store.manifestPath) fun reason =>
    ascii "failed to create snapshot directory: " ++ reason
  if !status.isOk then return status
  match ← call fun fs => fs.openTruncate store.manifestTmpFile with
  | .error _ => return .ioError (ascii "failed to open snapshot manifest temp file")
  | .ok fd =>
    if !(← streamWrite fd (manifestText env manifest)) then
      return .ioError (ascii "failed writing snapshot manifest")
    match ← touch with
    | .error _ => return .ioError (ascii "failed writing snapshot manifest")
    | .ok () =>
      install store.manifestTmpFile store.manifestFile (ascii "failed to install snapshot manifest: ")

/-- `SnapshotStore::save`; the offset of the checkpoint is the size of the log at its start. -/
def save (order : IterationOrder) (now : TimePoint) (storage : StorageEngine) (aof : Option Aof) :
    FileProgram FileName (Status × StorageEngine) := do
  match aof.filter fun aof => aof.enabled env.config.persistence with
  | some aof =>
    let offset := aof.currentSize
    let status ← aof.sync env.config.persistence
    if !status.isOk then return (status, storage)
    let (status, storage) ← saveSnapshotFile env store order now storage
    if !status.isOk then return (status, storage)
    let status ← writeManifest env store ⟨store.path, env.config.persistence.aofPath, offset, unixMs now⟩
    return (status, storage)
  | none =>
    let (status, storage) ← saveSnapshotFile env store order now storage
    if status.isOk then removeIfSafe store.manifestPath store.manifestFile
    return (status, storage)

/-- The first part of `save`, up to the manifest. -/
def syncAndSave (order : IterationOrder) (now : TimePoint) (storage : StorageEngine) (aof : Aof) :
    FileProgram FileName (Status × StorageEngine) := do
  let status ← aof.sync env.config.persistence
  if !status.isOk then return (status, storage)
  saveSnapshotFile env store order now storage

/-- A `save` with a log, as its stages. -/
theorem save_eq {aof : Aof} (hen : aof.enabled env.config.persistence = true) (order : IterationOrder)
    (now : TimePoint) (storage : StorageEngine) :
    save env store order now storage (some aof) = (do
      let (status, storage) ← syncAndSave env store order now storage aof
      if !status.isOk then return (status, storage)
      let status ← writeManifest env store
        ⟨store.path, env.config.persistence.aofPath, aof.currentSize, unixMs now⟩
      return (status, storage)) := by
  simp only [save, Option.filter_some, hen, if_true, syncAndSave, bind_assoc]
  refine bind_congr fun status => ?_
  cases hok : status.isOk with
  | true => rfl
  | false => simp [hok]

/-! ## Reading -/

/-- The key and the value of a line, unless it is blank, a comment or has no `=`. -/
def parseManifestLine (line : Bytes) : Option (Bytes × Bytes) :=
  let line := trim line
  if line = [] ∨ line.head? = some 35 ∨ 61 ∉ line then none
  else some (trim (line.takeWhile (· != 61)), trim ((line.dropWhile (· != 61)).drop 1))

/-- `parse_manifest_lines`: of several lines with one key, the first counts. -/
def parseManifestLines (content : Bytes) : List (Bytes × Bytes) :=
  (content.splitOn 10).filterMap parseManifestLine

/-- `read_manifest`, on the contents of the manifest file. -/
def readManifest (file : Option Bytes) : Option Manifest := do
  if !pathIsSafe store.manifestPath then none
  let values := parseManifestLines (← file)
  let version ← values.lookup (ascii "format_version")
  let snapshotPath ← values.lookup (ascii "snapshot_path")
  let aofPath ← values.lookup (ascii "aof_path")
  let aofOffset ← values.lookup (ascii "aof_offset")
  let createdUnixMs ← values.lookup (ascii "created_unix_ms")
  if version ≠ ascii "1" then none
  return ⟨snapshotPath, aofPath, ← parseU64 aofOffset, ← parseI64 createdUnixMs⟩

/-- `manifest_matches`; `snapshotExists` is the last test of the source. -/
def manifestMatches (manifest : Manifest) (aofPath : Bytes) (aofSize : ℕ) (snapshotExists : Bool) :
    Bool :=
  manifest.snapshotPath == env.lexicallyNormal store.path &&
  manifest.aofPath == env.lexicallyNormal aofPath &&
  decide (manifest.aofOffset ≤ aofSize) &&
  snapshotExists

/-- What `load` does with one command of the snapshot. -/
def loadCommand (now : TimePoint) : ReplayCallback StorageEngine := fun storage args =>
  match args with
  | [name, key, arg] =>
    if name = ascii "SET" then
      let (write, storage) := storage.set key arg none .always now
      if write.code ≠ .ok then (.internalError (storageWriteError write.code), storage)
      else (.ok, storage)
    else if name = ascii "PEXPIREAT" then
      match parseI64 arg with
      | none => (.protocolError (ascii "invalid PEXPIREAT in snapshot"), storage)
      | some ms => (.ok, (storage.expireAt key (timepointFromUnixMs ms) now).2)
    else (.protocolError (ascii "unknown snapshot command"), storage)
  | _ => (.protocolError (ascii "unknown snapshot command"), storage)

/-- `SnapshotStore::load`, on the contents of the snapshot file. -/
def load (now : TimePoint) (file : Option Bytes) (storage : StorageEngine) :
    Status × StorageEngine :=
  match file with
  | none => (.ok, storage)
  | some content =>
    if !pathIsSafe store.path then (.ok, storage)
    else if content = [] then (.ok, storage)
    else
      let parser : Parser := { options := parserOptionsFromConfig store.protocol }
      match parser.append content with
      | (status, parser) =>
        if !status.isOk then (status, storage)
        else
          match drain (loadCommand now) parser storage 0 with
          | (.needMore buffered, storage, _) =>
            (if buffered = 0 then .ok else .protocolError (ascii "partial snapshot command"), storage)
          | (.error message, storage, _) => (.protocolError message, storage)
          | (.refused status, storage, _) => (status, storage)

/-- `RecoveryLoadResult`. -/
structure RecoveryLoadResult where
  status : Status := .ok
  foundManifest : Bool := false
  loadedSnapshot : Bool := false
  aofReplayOffset : ℕ := 0
deriving DecidableEq, Repr

/-- `load_for_recovery`. -/
def loadForRecovery (now : TimePoint) (fs : FileSystem FileName) (aofPath : Bytes) (aofSize : ℕ)
    (storage : StorageEngine) : RecoveryLoadResult × StorageEngine :=
  match store.readManifest (fs.read store.manifestFile) with
  | none => ({}, storage)
  | some manifest =>
    if !manifestMatches env store manifest aofPath aofSize (fs.has .snapshot) then
      ({ foundManifest := true }, storage)
    else
      match store.load now (fs.read .snapshot) storage with
      | (status, storage) =>
        if !status.isOk then ({ status, foundManifest := true }, storage)
        else
          ({ foundManifest := true, loadedSnapshot := true, aofReplayOffset := manifest.aofOffset },
            storage)

end SnapshotStore

end VeloxDb
