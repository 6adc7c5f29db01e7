import VeloxDb.Commands.Registry

/-!
# `main.cpp`: recovery, and the life of a server

`recover` is what `main` does before it opens the log: load the snapshot if the manifest allows it,
and replay the log through the command registry from the offset found. `start` is a start of the
process.

A `Server` is a process, while one is running, with its files. It handles requests one after
another; a request may meet any failures and crashes of the kernel (its plan), and a process that is
gone can be started again.
-/

namespace VeloxDb

open Resp FileProgram

namespace Recovery

variable (env : Env) (order : IterationOrder) (now : TimePoint)

/-- The engine of a process that has just started. -/
def freshStorage : StorageEngine :=
  { setup := ⟨env.config.storage, env.config.protocol, env.hash⟩ }

/-- `replay_ctx`. -/
def replayContext (storage : StorageEngine) : CommandContext :=
  { storage, snapshot := some (.ofConfig env.config), hasRequestShutdown := false, replay := true }

/-- The replay callback of `main`. A replayed `SAVE` would write files, so they are part of the
state; all calls succeed here. -/
def replayCommand : ReplayCallback (CommandContext × FileSystem FileName) := fun (ctx, fs) args =>
  match CommandRegistry.execute env order now ctx args ⟨fs, []⟩ with
  | .ok (result, ctx) w =>
    if result.isError then (.protocolError (ascii "AOF command failed during replay"), ctx, w.fs)
    else (.ok, ctx, w.fs)
  | .error _ w => (.internalError (ascii "process died"), ctx, w.fs)

/-- The recovery of `main` with the log enabled: a status other than ok ends the process. -/
def recover (fs : FileSystem FileName) : Status × CommandContext × FileSystem FileName :=
  let store := SnapshotStore.ofConfig env.config
  let aofPath := env.config.persistence.aofPath
  let aofSize := ((fs.read .aof).map List.length).getD 0
  match store.loadForRecovery env now fs aofPath aofSize (freshStorage env) with
  | (loaded, storage) =>
    let ctx := replayContext env storage
    if !loaded.status.isOk then (loaded.status, ctx, fs)
    else
      let offset := if loaded.loadedSnapshot then loaded.aofReplayOffset else 0
      match replayFile aofPath (fs.read .aof) env.config.protocol (replayCommand env order now) offset
          (ctx, fs) with
      | (stats, ctx, fs) => (stats.status, ctx, fs)

/-- The start of a process: recover (or, without a log, load the snapshot, whatever comes of it),
then open the log. -/
def start : FileProgram FileName (Except Status CommandContext) := do
  let fs ← files
  let store := SnapshotStore.ofConfig env.config
  let (status, ctx, fs) :=
    if env.config.persistence.aofEnabled then recover env order now fs
    else
      let (_, storage) := store.load now (fs.read .snapshot) (freshStorage env)
      (.ok, replayContext env storage, fs)
  modify fun w => { w with fs }
  if !status.isOk then return .error status
  let (status, aof) ← Aof.openAof env {}
  if !status.isOk then return .error status
  return .ok { ctx with aof := some aof, hasRequestShutdown := true, replay := false }

end Recovery

/-! ## Serial runs -/

/-- The files, the process if one is running, and the last reading of the clock. -/
structure Server where
  process : Option CommandContext := none
  fs : FileSystem FileName := .empty
  clock : Option TimePoint := none

/-- What can happen to a server: a request, a round of active expiration, or a new start of the
process. Each comes with its reading of the clock, the iteration order of the entries and the
answers of the kernel. -/
inductive Event
  | request (now : TimePoint) (order : IterationOrder) (plan : List CallOutcome) (args : List Bytes)
  | activeExpire (now : TimePoint)
  | restart (now : TimePoint) (order : IterationOrder) (plan : List CallOutcome)

/-- The reading of the clock at an event. -/
def Event.now : Event → TimePoint
  | .request now _ _ _ => now
  | .activeExpire now => now
  | .restart now _ _ => now

namespace Server

variable (env : Env)

/-- One event: the reply, if it is a request that gets one, and the server after it. -/
def step (s : Server) : Event → Option CommandResult × Server
  | .request now order plan args =>
    match s.process with
    | none => (none, { s with clock := some now })
    | some ctx =>
      match CommandRegistry.execute env order now ctx args ⟨s.fs, plan⟩ with
      | .ok (result, ctx) w => (some result, ⟨some ctx, w.fs, some now⟩)
      | .error _ w => (none, ⟨none, w.fs, some now⟩)
  | .activeExpire now =>
    (none, { s with
      process := s.process.map fun ctx =>
        { ctx with storage := (ctx.storage.activeExpire env.config.expiration.samplePerShard now).2 }
      clock := some now })
  | .restart now order plan =>
    match Recovery.start env order now ⟨s.fs, plan⟩ with
    | .ok (.ok ctx) w => (none, ⟨some ctx, w.fs, some now⟩)
    | .ok (.error _) w => (none, ⟨none, w.fs, some now⟩)
    | .error _ w => (none, ⟨none, w.fs, some now⟩)

/-- The servers that events reach from one without files, where every event and its reply meet
`allowed`. -/
inductive Run (allowed : Server → Event → Option CommandResult → Server → Prop) : Server → Prop
  | init : Run allowed {}
  | step {s : Server} (e : Event) (hrun : Run allowed s)
      (hallowed : allowed s e (s.step env e).1 (s.step env e).2) : Run allowed (s.step env e).2

/-- The server after events in a row. -/
def after (s : Server) (events : List Event) : Server :=
  events.foldl (fun s e => (s.step env e).2) s

/-- Every event of the list meets `allowed` when it happens. -/
def AllAllowed (allowed : Server → Event → Option CommandResult → Server → Prop) :
    Server → List Event → Prop
  | _, [] => True
  | s, e :: events =>
    allowed s e (s.step env e).1 (s.step env e).2 ∧ AllAllowed allowed (s.step env e).2 events

instance decidableAllAllowed {allowed : Server → Event → Option CommandResult → Server → Prop}
    [∀ s e reply s', Decidable (allowed s e reply s')] :
    ∀ s events, Decidable (AllAllowed env allowed s events)
  | _, [] => .isTrue trivial
  | s, e :: events => @instDecidableAnd _ _ _ (decidableAllAllowed (s.step env e).2 events)

/-- A run and what follows it. -/
theorem Run.after {env : Env} {allowed : Server → Event → Option CommandResult → Server → Prop}
    {s : Server} (h : Run env allowed s) {events : List Event} (hall : AllAllowed env allowed s events) :
    Run env allowed (s.after env events) := by
  induction events generalizing s with
  | nil => exact h
  | cons e events ih => exact ih (h.step e hall.1) hall.2

end Server

/-! ## A plain environment, for concrete runs -/

/-- One shard, and the default paths, which are their own normal form. -/
def Env.plain (config : Config) : Env :=
  { config := { config with storage := { config.storage with shards := 1 }, persistence := {} }
    hash := fun _ => 0
    lexicallyNormal := id
    parentPath := fun _ => []
    pid := 1
    apart := pathsApart_default }

/-- The entries in the order of the shards. -/
def IterationOrder.listed : IterationOrder := ⟨id, fun _ => .refl _⟩

/-- A request that meets no failure, with arguments written as text. -/
def Event.calmRequest (now : TimePoint) (args : List String) : Event :=
  .request now .listed [] (args.map ascii)

/-- A start that meets no failure. -/
def Event.calmStart (now : TimePoint) : Event := .restart now .listed []

end VeloxDb
