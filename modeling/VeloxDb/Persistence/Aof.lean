import VeloxDb.Common.FileProgram
import VeloxDb.Persistence.Replay
import VeloxDb.Storage.Engine

/-!
# `persistence/aof.cpp`: the append-only file

The file operations are programs over the files of the server (`FileProgram`), so every one of their
calls can fail, and the process can die between any two of them. The in-memory part of the class is
the record `Aof`; mutexes and the thread that syncs every second are left out, a sync does not
change what is in a file.
-/

namespace VeloxDb

open Decimal Util Resp FileProgram

/-- The files of the server. The manifest is at the configured path, or at `<snapshot>.manifest`
where none is configured. -/
inductive FileName
  | aof
  | aofTmp
  | snapshot
  | snapshotTmp
  | manifest
  | manifestTmp
  | defaultManifest
  | defaultManifestTmp
deriving DecidableEq, Repr

/-- `path_ + ".rewrite." + pid + ".tmp"`. -/
def rewriteTmpPath (path : Bytes) (pid : ℕ) : Bytes :=
  path ++ ascii ".rewrite." ++ print pid ++ ascii ".tmp"

/-- The path of the manifest if none is configured. -/
def defaultManifestPath (snapshotPath : Bytes) : Bytes := snapshotPath ++ ascii ".manifest"

/-- The file that a manifest is written to before it is renamed. -/
def manifestTmpPath (path : Bytes) : Bytes := path ++ ascii ".tmp"

/-- The path of a file. -/
def FileName.path (config : PersistenceConfig) (pid : ℕ) : FileName → Bytes
  | .aof => config.aofPath
  | .aofTmp => rewriteTmpPath config.aofPath pid
  | .snapshot => config.snapshotPath
  | .snapshotTmp => config.snapshotPath ++ ascii ".tmp"
  | .manifest => config.manifestPath
  | .manifestTmp => manifestTmpPath config.manifestPath
  | .defaultManifest => defaultManifestPath config.snapshotPath
  | .defaultManifestTmp => manifestTmpPath (defaultManifestPath config.snapshotPath)

/-- The files that a server with this configuration uses. -/
def FileName.used (config : PersistenceConfig) : List FileName :=
  [.aof, .aofTmp, .snapshot, .snapshotTmp] ++
    if config.manifestPath = [] then [.defaultManifest, .defaultManifestTmp]
    else [.manifest, .manifestTmp]

/-- No two of the files are at the same path. -/
def PathsApart (config : PersistenceConfig) (lexicallyNormal : Bytes → Bytes) (pid : ℕ) : Prop :=
  ((FileName.used config).map fun file => lexicallyNormal (file.path config pid)).Nodup

/-- The default paths lead to different files. -/
theorem pathsApart_default : PathsApart {} id 1 := by
  unfold PathsApart
  decide +kernel

/-- The configuration, and what the program takes from its surroundings: `std::hash`,
`path::lexically_normal`, `path::parent_path` and the process id. The paths of the files are different
ones, so that the programs may go by the names of the files. -/
structure Env where
  config : Config
  hash : Bytes → ℕ
  lexicallyNormal : Bytes → Bytes
  parentPath : Bytes → Bytes
  pid : ℕ
  apart : PathsApart config.persistence lexicallyNormal pid

/-- A path that is used is the path of one file only. -/
theorem Env.file_eq_of_path_eq (env : Env) {file other : FileName}
    (hfile : file ∈ FileName.used env.config.persistence)
    (hother : other ∈ FileName.used env.config.persistence)
    (h : env.lexicallyNormal (file.path env.config.persistence env.pid)
      = env.lexicallyNormal (other.path env.config.persistence env.pid)) : file = other :=
  List.inj_on_of_nodup_map env.apart hfile hother h

/-- An order in which `unordered_map` may present the live entries. -/
structure IterationOrder where
  arrange : List SnapshotEntry → List SnapshotEntry
  perm : ∀ entries, (arrange entries).Perm entries

/-- A call that changes no contents, such as `fsync`, `close` or `create_directories`. -/
def touch : FileProgram FileName (Except Bytes Unit) := call fun fs => (fs, ())

/-- `std::filesystem::remove`. -/
def removeFile (name : FileName) : FileProgram FileName (Except Bytes Unit) :=
  call fun fs => (fs.remove name, ())

/-- `std::filesystem::rename`. -/
def renameFile (src dst : FileName) : FileProgram FileName (Except Bytes Unit) :=
  call fun fs => (fs.rename src dst, ())

/-- Remove the file at a path that is safe; whether it worked is ignored. -/
def removeIfSafe (path : Bytes) (name : FileName) : FileProgram FileName Unit :=
  if pathIsSafe path then discard (removeFile name) else return

/-- `ensure_parent_dir`; `message` puts the reason of a failure into words. -/
def ensureParentDir (parent : Bytes) (message : Bytes → Bytes) : FileProgram FileName Status :=
  if parent = [] then return .ok
  else do
    match ← touch with
    | .ok () => return .ok
    | .error reason => return .ioError (message reason)

/-- `sync_fd`. -/
def syncFd (target : Bytes) : FileProgram FileName Status := do
  match ← touch with
  | .ok () => return .ok
  | .error reason =>
    return .ioError (ascii "fsync failed for " ++ target ++ ascii ": " ++ reason)

/-- `close_fd`. -/
def closeFd (target : Bytes) : FileProgram FileName Status := do
  match ← touch with
  | .ok () => return .ok
  | .error reason =>
    return .ioError (ascii "failed to close " ++ target ++ ascii ": " ++ reason)

/-- Sync a file and close it; of two failures the first is reported. -/
def syncAndClose (target : Bytes) : FileProgram FileName Status := do
  let synced ← syncFd target
  let closed ← closeFd target
  return if synced.isOk && !closed.isOk then closed else synced

/-- The records that stand for one live entry, in a snapshot as in a rewritten log. -/
def snapshotRecords (entry : SnapshotEntry) : List (List Bytes) :=
  [ascii "SET", entry.key, entry.value] ::
    (entry.expireAtUnixMs.map fun ms => [ascii "PEXPIREAT", entry.key, printInt ms]).toList

/-- `write_all` of one record after another, up to the first that fails. -/
def writeRecords (fd : ℕ) : List (List Bytes) → FileProgram FileName (Except Bytes Unit)
  | [] => return .ok ()
  | record :: rest => do
    match ← writeAll fd (encodeCommand record) with
    | .error reason => return .error reason
    | .ok () => writeRecords fd rest

/-! ## The class -/

/-- `FsyncPolicy`. -/
inductive FsyncPolicy
  | always
  | everySec
  | no
deriving DecidableEq, Repr

/-- `parse_policy`: a word that is no policy is `everysec`. -/
def parsePolicy (policy : Bytes) : FsyncPolicy :=
  let lower := toLowerAscii policy
  if lower = ascii "always" then .always
  else if lower = ascii "no" then .no
  else .everySec

/-- The members of `Aof` that change. -/
structure Aof where
  fd : Option ℕ := none
  currentSize : ℕ := 0
  lastWriteOk : Bool := true
  lastError : Bytes := []
deriving DecidableEq, Repr

namespace Aof

/-- `enabled`. -/
def enabled (aof : Aof) (config : PersistenceConfig) : Bool := config.aofEnabled && aof.fd.isSome

/-- Record a failure. -/
def failed (aof : Aof) (status : Status) : Aof :=
  { aof with lastWriteOk := false, lastError := status.message }

/-- `reopen_locked`. -/
def reopenLocked (aof : Aof) (path : Bytes) : FileProgram FileName (Status × Aof) := do
  match ← call fun fs => fs.openAppend .aof with
  | .error reason => return (.ioError (ascii "failed to open AOF " ++ path ++ ascii ": " ++ reason), aof)
  | .ok fd =>
    -- the old descriptor is closed, and the size is read back through the path
    match ← call fun fs => (fs, ((fs.read .aof).map List.length).getD 0) with
    | .error _ => return (.ok, { aof with fd := some fd, currentSize := 0 })
    | .ok size => return (.ok, { aof with fd := some fd, currentSize := size })

/-- `Aof::open`, up to the start of the sync thread. -/
def openAof (env : Env) (aof : Aof) : FileProgram FileName (Status × Aof) := do
  let config := env.config.persistence
  if !config.aofEnabled then return (.ok, aof)
  if !pathIsSafe config.aofPath then return (.invalidArgument (ascii "invalid AOF path"), aof)
  let parent := env.parentPath config.aofPath
  let status ← ensureParentDir parent fun reason =>
    ascii "failed to create directory " ++ parent ++ ascii ": " ++ reason
  if !status.isOk then return (status, aof)
  aof.reopenLocked config.aofPath

/-- `write_bytes_locked`. -/
def writeBytesLocked (aof : Aof) (bytes : Bytes) : FileProgram FileName (Status × Aof) := do
  match aof.fd with
  | none => return (.ioError (ascii "AOF is not open"), aof)
  | some fd =>
    match ← writeAll fd bytes with
    | .error reason => return (.ioError reason, aof)
    | .ok () => return (.ok, { aof with currentSize := aof.currentSize + bytes.length })

/-- `append`. -/
def append (config : PersistenceConfig) (aof : Aof) (args : List Bytes) :
    FileProgram FileName (Status × Aof) := do
  if !aof.enabled config then return (.ok, aof)
  let (status, aof) ← aof.writeBytesLocked (encodeCommand args)
  if !status.isOk then return (status, aof.failed status)
  if parsePolicy config.fsyncPolicy = .always then
    match ← touch with
    | .error reason =>
      let status : Status := .ioError (ascii "fsync failed: " ++ reason)
      return (status, aof.failed status)
    | .ok () => return (.ok, { aof with lastWriteOk := true })
  else return (.ok, { aof with lastWriteOk := true })

/-- `sync`. -/
def sync (config : PersistenceConfig) (aof : Aof) : FileProgram FileName Status :=
  if aof.fd = none then return .ok else syncFd config.aofPath

/-- The last part of `Aof::rewrite`: put the temporary file in the place of the log, remove the
manifest, whose offset belongs to the old log, and continue on the new one. -/
def installRewrite (config : PersistenceConfig) (aof : Aof) : FileProgram FileName (Status × Aof) := do
  match ← renameFile .aofTmp .aof with
  | .error _ =>
    -- the error code of the removal overwrites that of the rename
    let reason := match ← removeFile .aofTmp with
      | .ok () => ascii "Success"
      | .error reason => reason
    let status : Status := .ioError (ascii "failed to install rewritten AOF: " ++ reason)
    return (status, aof.failed status)
  | .ok () =>
    let _ ← touch
    removeIfSafe config.manifestPath .manifest
    let (status, aof) ← aof.reopenLocked config.aofPath
    if !status.isOk then return (status, aof.failed status)
    return (.ok, { aof with lastWriteOk := true, lastError := [] })

/-- `rewrite`. -/
def rewrite (env : Env) (order : IterationOrder) (now : TimePoint) (aof : Aof)
    (storage : StorageEngine) : FileProgram FileName (Status × Aof × StorageEngine) := do
  let config := env.config.persistence
  if !config.aofEnabled then
    return (.invalidArgument (ascii "AOF is disabled"), aof, storage)
  if !pathIsSafe config.aofPath then
    return (.invalidArgument (ascii "invalid AOF path"), aof, storage)
  let parent := env.parentPath config.aofPath
  let status ← ensureParentDir parent fun reason =>
    ascii "failed to create directory " ++ parent ++ ascii ": " ++ reason
  if !status.isOk then return (status, aof.failed status, storage)
  match ← call fun fs => fs.openTruncate .aofTmp with
  | .error reason =>
    let status : Status := .ioError (ascii "failed to open AOF rewrite temp file: " ++ reason)
    return (status, aof.failed status, storage)
  | .ok tmpFd =>
    let (entries, storage) := storage.snapshot now
    match ← writeRecords tmpFd ((order.arrange entries).flatMap snapshotRecords) with
    | .error reason =>
      let status : Status := .ioError reason
      let _ ← removeFile .aofTmp
      return (status, aof.failed status, storage)
    | .ok () =>
      let status ← syncAndClose (rewriteTmpPath config.aofPath env.pid)
      if !status.isOk then
        let _ ← removeFile .aofTmp
        return (status, aof.failed status, storage)
      let (status, aof) ← installRewrite config aof
      return (status, aof, storage)

/-! ## A rewrite in parts -/

/-- The first part of `rewrite`: the live entries are written to the temporary file. -/
def materialise (env : Env) (order : IterationOrder) (now : TimePoint) (aof : Aof)
    (storage : StorageEngine) : FileProgram FileName (Status × Aof × StorageEngine) := do
  let config := env.config.persistence
  let parent := env.parentPath config.aofPath
  let status ← ensureParentDir parent fun reason =>
    ascii "failed to create directory " ++ parent ++ ascii ": " ++ reason
  if !status.isOk then return (status, aof.failed status, storage)
  match ← call fun fs => fs.openTruncate .aofTmp with
  | .error reason =>
    let status : Status := .ioError (ascii "failed to open AOF rewrite temp file: " ++ reason)
    return (status, aof.failed status, storage)
  | .ok tmpFd =>
    let (entries, storage) := storage.snapshot now
    match ← writeRecords tmpFd ((order.arrange entries).flatMap snapshotRecords) with
    | .error reason =>
      let status : Status := .ioError reason
      let _ ← removeFile .aofTmp
      return (status, aof.failed status, storage)
    | .ok () =>
      let status ← syncAndClose (rewriteTmpPath config.aofPath env.pid)
      if !status.isOk then
        let _ ← removeFile .aofTmp
        return (status, aof.failed status, storage)
      return (status, aof, storage)

/-- The second part: the temporary file takes the place of the log. -/
def swap (aof : Aof) : FileProgram FileName (Status × Aof) := do
  match ← renameFile .aofTmp .aof with
  | .error _ =>
    let reason := match ← removeFile .aofTmp with
      | .ok () => ascii "Success"
      | .error reason => reason
    let status : Status := .ioError (ascii "failed to install rewritten AOF: " ++ reason)
    return (status, aof.failed status)
  | .ok () =>
    let _ ← touch
    return (.ok, aof)

/-- The last part, after the removal of the manifest: continue on the new file. -/
def resume (config : PersistenceConfig) (aof : Aof) : FileProgram FileName (Status × Aof) := do
  let (status, aof) ← aof.reopenLocked config.aofPath
  if !status.isOk then return (status, aof.failed status)
  return (.ok, { aof with lastWriteOk := true, lastError := [] })

/-- The end of a rewrite, as the swap of the files and what follows it. -/
theorem installRewrite_eq (config : PersistenceConfig) (aof : Aof) :
    installRewrite config aof = (do
      let (status, aof) ← aof.swap
      if !status.isOk then return (status, aof)
      removeIfSafe config.manifestPath .manifest
      aof.resume config) := by
  simp only [installRewrite, swap, resume, bind_assoc]
  refine bind_congr fun renamed => ?_
  cases renamed with
  | ok _ => simp only [bind_assoc, pure_bind, Status.isOk_ok, Bool.not_true, Bool.false_eq_true, if_false]
  | error reason => simp only [bind_assoc, pure_bind]; rfl

/-- A rewrite that is not refused, as its stages. -/
theorem rewrite_eq {env : Env} (hen : env.config.persistence.aofEnabled = true)
    (hsafe : pathIsSafe env.config.persistence.aofPath = true) (order : IterationOrder)
    (now : TimePoint) (aof : Aof) (storage : StorageEngine) :
    rewrite env order now aof storage = (do
      let (status, aof, storage) ← materialise env order now aof storage
      if !status.isOk then return (status, aof, storage)
      let (status, aof) ← installRewrite env.config.persistence aof
      return (status, aof, storage)) := by
  simp only [rewrite, materialise, hen, hsafe, Bool.not_true, Bool.false_eq_true, if_false, bind_assoc]
  refine bind_congr fun status => ?_
  cases hok : status.isOk with
  | false => simp [hok]
  | true =>
    simp only [Bool.not_true, Bool.false_eq_true, if_false, bind_assoc]
    refine bind_congr fun opened => ?_
    cases opened with
    | error reason => rfl
    | ok fd =>
      simp only [bind_assoc]
      refine bind_congr fun written => ?_
      cases written with
      | error reason =>
        simp only [bind_assoc, pure_bind]
        rfl
      | ok _ =>
        simp only [bind_assoc]
        refine bind_congr fun closed => ?_
        cases hclosed : closed.isOk with
        | false => simp [hclosed]
        | true => simp [hclosed]

end Aof

end VeloxDb
