import VeloxDb.Commands.Mutation
import VeloxDb.Common.Machine
import VeloxDb.Common.SharedMutex
import VeloxDb.Recovery.Serving

/-!
# Concurrent workers

Any number of clients have their commands executed at the same time. A write command takes the
barrier of the log in shared mode, makes its calls on the storage one by one, appends its record and
releases the barrier; `SAVE` and `BGREWRITEAOF` take it exclusively. A step of the machine is one
call on the storage, one file operation or one operation on the barrier, so between any two of them
others may take theirs. Reads and rounds of active expiration take no barrier and can come at any
time.

Every command has an index of its own. All calls of the kernel succeed, and the log is open.

The state also carries a history that no step looks at: the accesses to the storage in their order,
the records that were appended since the log was last replaced, the rewrite that has replaced it, and
the checkpoints whose manifest has not been removed.
-/

namespace VeloxDb

open FileProgram FileSystem Util

namespace Concurrency

/-! ## Accesses to the storage -/

/-- What a read or a round of active expiration does under the lock of one shard. -/
inductive ReadCall
  | get (key : Bytes)
  | ttl (key : Bytes)
  | scanShard (i : ℕ)
  | activeExpireShard (samplePerShard i : ℕ)

/-- A read can drop expired entries. -/
def ReadCall.apply (now : TimePoint) (e : StorageEngine) : ReadCall → StorageEngine
  | .get key => (e.get key now).2
  | .ttl key => (e.ttl key now).2
  | .scanShard i => if i < e.setup.shardCount then (StorageEngine.scanShard now ([], e) i).2 else e
  | .activeExpireShard samplePerShard i =>
    if i < e.setup.shardCount then (StorageEngine.activeExpireShard now samplePerShard (0, e) i).2
    else e

variable {ι : Type}

/-- An access to the storage: a call of the command `i`, a read, or the scan for a snapshot. -/
inductive Access (ι : Type)
  | call (i : ι) (now : TimePoint) (c : StorageCall)
  | read (now : TimePoint) (r : ReadCall)
  | snapshot (now : TimePoint)

namespace Access

/-- What an access does to the engine. -/
def apply (e : StorageEngine) : Access ι → StorageEngine
  | .call _ now c => (e.perform now c).2
  | .read now r => r.apply now e
  | .snapshot now => (e.snapshot now).2

/-- The command that makes the access. -/
def owner : Access ι → Option ι
  | .call i _ _ => some i
  | .read _ _ | .snapshot _ => none

/-- The storage after a list of accesses. -/
def applyAll (e : StorageEngine) (accesses : List (Access ι)) : StorageEngine := accesses.foldl apply e

/-- One more access. -/
@[simp] theorem applyAll_concat (e : StorageEngine) (accesses : List (Access ι)) (a : Access ι) :
    applyAll e (accesses ++ [a]) = a.apply (applyAll e accesses) := by
  simp [applyAll]

end Access

/-! ## The state -/

/-- A write command and the reading of the clock that it is executed with. -/
structure Request where
  now : TimePoint
  args : List Bytes

/-- The calls of a request, if it is a command that changes data. -/
def Request.program (request : Request) (shardCount : ℕ) : Option Mutation :=
  (CommandName.ofArgs request.args).bind fun name =>
    Commands.mutation name shardCount request.now request.args

/-- How a write command ends: with its reply and its record, and whether one of its calls has
reported a change. -/
structure Completion where
  result : CommandResult
  record : Option (List Bytes)
  changed : Bool

/-- A snapshot, or a log that was rewritten: its text, and the offset in the log from which on the
records are to be replayed after it. For the history, the number of accesses to the storage and the
number of records in the log before it. -/
structure Checkpoint where
  order : IterationOrder
  now : TimePoint
  text : Bytes
  offset : ℕ
  performed : ℕ
  logged : ℕ

/-- How far a command has come. -/
inductive Phase
  | idle
  -- a write command, under the shared barrier until it has finished
  | mutating (request : Request) (changed : Bool) (rest : Mutation)
  | logged (completion : Completion)
  | finished (completion : Completion)
  -- `SAVE`, which knows the size of the log, and then has written the snapshot
  | saving (offset : ℕ)
  | snapshotSaved (checkpoint : Checkpoint)
  -- `BGREWRITEAOF`
  | rewriting
  | materialised (checkpoint : Checkpoint)
  | renamed
  | invalidated
  -- the end of both
  | leaving
  | closed

/-- How a command holds the barrier. -/
def Phase.mode : Phase → LockMode
  | .idle | .finished _ | .closed => .free
  | .mutating _ _ _ | .logged _ => .shared
  | .saving _ | .snapshotSaved _ | .rewriting | .materialised _ | .renamed | .invalidated | .leaving =>
    .exclusive

/-- The log has been replaced, but its descriptor is still that of the old file. -/
def Phase.detached : Phase → Bool
  | .renamed | .invalidated => true
  | _ => false

/-- The log has been replaced, but the manifest is still that of the old file. -/
def Phase.stale : Phase → Bool
  | .renamed => true
  | _ => false

/-- The snapshot has been replaced, but the manifest is still that of the old one. -/
def Phase.unmarked : Phase → Bool
  | .snapshotSaved _ => true
  | _ => false

/-- The shared state: engine, log, files and barrier, with the phase of every connection. -/
structure State (ι : Type) where
  storage : StorageEngine
  aof : Aof
  fs : FileSystem FileName
  barrier : SharedMutex ι
  phase : ι → Phase
  trace : List (Access ι)
  /-- What the log held when it was opened or replaced. -/
  base : Bytes
  log : List (ι × List Bytes)
  /-- The rewrite that the log comes from. -/
  rewritten : Option Checkpoint
  /-- Every `SAVE` since the manifest was last removed, the latest one first. -/
  checkpoints : List Checkpoint

/-- What can happen next. -/
inductive Action (ι : Type)
  | command (i : ι) (now : TimePoint) (args : List Bytes)
  | save (i : ι)
  | rewrite (i : ι)
  | proceed (i : ι) (order : IterationOrder) (now : TimePoint)
  | read (now : TimePoint) (r : ReadCall)

/-! ## The steps -/

namespace State

variable [DecidableEq ι] (env : Env) (s : State ι) (i : ι)

/-- One connection changes its phase. -/
def setPhase (p : Phase) : State ι := { s with phase := Function.update s.phase i p }

/-- A write command takes the barrier. -/
def command (now : TimePoint) (args : List Bytes) : Option (State ι) :=
  match s.phase i, Request.program ⟨now, args⟩ s.storage.setup.shardCount, s.barrier.lockShared i with
  | .idle, some program, some barrier =>
    some ({ s with barrier }.setPhase i (.mutating ⟨now, args⟩ false program))
  | _, _, _ => none

/-- One of its calls. -/
def perform (request : Request) (changed : Bool) (c : StorageCall) (next : c.Answer → Mutation) :
    State ι :=
  let (answer, storage) := s.storage.perform request.now c
  { s with storage, trace := s.trace ++ [Access.call i request.now c] }.setPhase i
    (.mutating request (changed || c.changed answer) (next answer))

/-- `persist_or_ok`. -/
def persist (completion : Completion) : Option (State ι) :=
  match completion.record with
  | none => some (s.setPhase i (.logged completion))
  | some record =>
    match calmly (s.aof.append env.config.persistence record) s.fs with
    | none => none
    | some ((status, aof), fs) =>
      if status.isOk then
        some ({ s with aof, fs, log := s.log ++ [(i, record)] }.setPhase i (.logged completion))
      else
        let result := Commands.err (ascii "persistence append failed: " ++ status.message)
        some ({ s with aof, fs }.setPhase i (.logged { completion with result }))

/-- It releases the barrier. -/
def finish (completion : Completion) : State ι :=
  { s with barrier := s.barrier.unlockShared i }.setPhase i (.finished completion)

/-- `SAVE` takes the barrier and reads the size of the log. -/
def save : Option (State ι) :=
  match s.phase i, s.barrier.lock i with
  | .idle, some barrier => some ({ s with barrier }.setPhase i (.saving s.aof.currentSize))
  | _, _ => none

/-- It writes the snapshot. -/
def saveSnapshot (offset : ℕ) (order : IterationOrder) (now : TimePoint) : Option (State ι) :=
  match calmly ((SnapshotStore.ofConfig env.config).syncAndSave env order now s.storage s.aof) s.fs with
  | none => none
  | some ((status, storage), fs) =>
    if status.isOk then
      some ({ s with storage, fs, trace := s.trace ++ [Access.snapshot now] }.setPhase i
        (.snapshotSaved
          ⟨order, now, (fs.read .snapshot).getD [], offset, s.trace.length, s.log.length⟩))
    else some ({ s with storage, fs }.setPhase i .leaving)

/-- It writes the manifest. -/
def saveManifest (checkpoint : Checkpoint) (now : TimePoint) : Option (State ι) :=
  let store := SnapshotStore.ofConfig env.config
  match calmly (store.writeManifest env
    ⟨store.path, env.config.persistence.aofPath, checkpoint.offset, unixMs now⟩) s.fs with
  | none => none
  | some (status, fs) =>
    if status.isOk then
      some ({ s with fs, checkpoints := checkpoint :: s.checkpoints }.setPhase i .leaving)
    else some ({ s with fs }.setPhase i .leaving)

/-- `BGREWRITEAOF` takes the barrier, unless it can tell beforehand that it will not work. -/
def rewrite : Option (State ι) :=
  match s.phase i, s.barrier.lock i with
  | .idle, some barrier =>
    if env.config.persistence.aofEnabled && pathIsSafe env.config.persistence.aofPath then
      some ({ s with barrier }.setPhase i .rewriting)
    else none
  | _, _ => none

/-- It writes the live entries to the temporary file. -/
def materialise (order : IterationOrder) (now : TimePoint) : Option (State ι) :=
  match calmly (s.aof.materialise env order now s.storage) s.fs with
  | none => none
  | some ((status, aof, storage), fs) =>
    if status.isOk then
      let text := (fs.read .aofTmp).getD []
      some ({ s with aof, storage, fs, trace := s.trace ++ [Access.snapshot now] }.setPhase i
        (.materialised ⟨order, now, text, text.length, s.trace.length, 0⟩))
    else some ({ s with aof, storage, fs }.setPhase i .leaving)

/-- The temporary file takes the place of the log. -/
def swap (checkpoint : Checkpoint) : Option (State ι) :=
  match calmly s.aof.swap s.fs with
  | none => none
  | some ((status, aof), fs) =>
    if status.isOk then
      some ({ s with aof, fs, base := checkpoint.text, log := [], rewritten := some checkpoint }.setPhase
        i .renamed)
    else some ({ s with aof, fs }.setPhase i .leaving)

/-- The manifest at the configured path is removed; the store may have written it to another. -/
def removeManifest : Option (State ι) :=
  match calmly (removeIfSafe env.config.persistence.manifestPath .manifest) s.fs with
  | none => none
  | some ((), fs) =>
    let checkpoints :=
      if fs.has (SnapshotStore.ofConfig env.config).manifestFile then s.checkpoints else []
    some ({ s with fs, checkpoints }.setPhase i .invalidated)

/-- The log is opened again. -/
def resume : Option (State ι) :=
  match calmly (s.aof.resume env.config.persistence) s.fs with
  | none => none
  | some ((_, aof), fs) => some ({ s with aof, fs }.setPhase i .leaving)

/-- `SAVE` and `BGREWRITEAOF` release the barrier. -/
def leave : State ι := { s with barrier := s.barrier.unlock }.setPhase i .closed

/-- The next step of a command that has begun. -/
def proceed (order : IterationOrder) (now : TimePoint) : Option (State ι) :=
  match s.phase i with
  | .idle | .finished _ | .closed => none
  | .mutating request changed (.call c next) => some (s.perform i request changed c next)
  | .mutating _ changed (.done result record) => s.persist env i ⟨result, record, changed⟩
  | .logged completion => some (s.finish i completion)
  | .saving offset => s.saveSnapshot env i offset order now
  | .snapshotSaved checkpoint => s.saveManifest env i checkpoint now
  | .rewriting => s.materialise env i order now
  | .materialised checkpoint => s.swap i checkpoint
  | .renamed => s.removeManifest env i
  | .invalidated => s.resume env i
  | .leaving => some (s.leave i)

/-- A read of the engine. -/
def read (now : TimePoint) (r : ReadCall) : State ι :=
  { s with storage := r.apply now s.storage, trace := s.trace ++ [.read now r] }

/-- A step, where it can be taken. -/
def step : Action ι → Option (State ι)
  | .command i now args => s.command i now args
  | .save i => s.save i
  | .rewrite i => s.rewrite env i
  | .proceed i order now => s.proceed env i order now
  | .read now r => some (s.read now r)

/-- A command that would have to wait does not move. -/
def next (a : Action ι) : State ι := (s.step env a).getD s

end State

end Concurrency

end VeloxDb
