import VeloxDb.Persistence.Outcomes
import VeloxDb.Recovery.Simulation

/-!
# A serving process, and replay through the registry

`Serving` is what holds of a process that has its log open: the descriptor is attached to the file,
and the storage is well formed. In a calm world a command on data replies with its effect and
appends its record, and a start of the process on the files it left leaves the log as it was.

On the other side, `feed_of_applyRecords` turns the replay callback of `main` on a list of records
into `applyRecords`, a fold over the records. If the memory that the records can take together is
there, the limit makes no difference to it (`applyRecords_unlimit`).
-/

namespace VeloxDb

open Resp FileProgram FileSystem Recovery

/-! ## The process -/

/-- A running server: its log is open, and on the disk is what was appended. -/
structure Serving (env : Env) (ctx : CommandContext) (fs : FileSystem FileName) (log : Bytes) : Prop where
  aof : ∃ aof, ctx.aof = some aof ∧ aof.Attached fs log
  replay : ctx.replay = false
  snapshot : ctx.snapshot = some (.ofConfig env.config)
  setup : ctx.storage.setup = (freshStorage env).setup
  wf : ctx.storage.WF
  safe : pathIsSafe env.config.persistence.aofPath = true

/-- The log with the record of an effect, if it has one. -/
def Effect.logged (eff : Effect) (log : Bytes) : Bytes := log ++ (eff.record.map encodeCommand).getD []

variable {env : Env} {ctx : CommandContext} {fs : FileSystem FileName} {log : Bytes}

/-- Appending a record in a calm world. -/
theorem Aof.Attached.append_calm {aof : Aof} (h : aof.Attached fs log) {config : PersistenceConfig}
    (hen : config.aofEnabled = true) (args : List Bytes) :
    ∃ status aof' fs', aof.append config args ⟨fs, []⟩ = .ok (status, aof') ⟨fs', []⟩ ∧
      status.isOk = true ∧ Keeps [.aof] fs fs' ∧ aof'.Attached fs' (log ++ encodeCommand args) := by
  have hspec := Aof.spec_append (w := ⟨fs, []⟩) h hen args
  obtain ⟨⟨status, aof'⟩, ⟨fs', plan⟩, hrun, hkeeps, hcalm, hatt⟩ :=
    (hspec.mono (fun _ _ hq => hq) fun _ hc => absurd rfl hc.2).exists_ok
  obtain ⟨rfl, hok⟩ := hcalm rfl
  exact ⟨status, aof', fs', hrun, hok, hkeeps, hatt hok⟩

/-- `persist` in a calm world: the reply is that of the effect, and the record is in the log. -/
theorem Serving.persist (h : Serving env ctx fs log)
    (hen : env.config.persistence.aofEnabled = true) {eff : Effect}
    (hsetup : eff.storage.setup = ctx.storage.setup) (hwf : eff.storage.WF) :
    ∃ ctx' fs', CommandRegistry.persist env.config eff ctx ⟨fs, []⟩ = .ok (eff.result, ctx') ⟨fs', []⟩ ∧
      ctx'.storage = eff.storage ∧ Keeps [.aof] fs fs' ∧ Serving env ctx' fs' (eff.logged log) := by
  obtain ⟨aof, haof, hatt⟩ := h.aof
  cases hrec : eff.record with
  | none =>
    refine ⟨{ ctx with storage := eff.storage }, fs, ?_, rfl, Keeps.refl _ _, ?_⟩
    · simp only [CommandRegistry.persist, hrec]
      rfl
    · simp only [Effect.logged, hrec, Option.map_none, Option.getD_none, List.append_nil]
      exact ⟨⟨aof, haof, hatt⟩, h.replay, h.snapshot, hsetup.trans h.setup, hwf, h.safe⟩
  | some record =>
    obtain ⟨status, aof', fs', hrun, hok, hkeeps, hatt'⟩ := hatt.append_calm hen record
    refine ⟨{ ctx with storage := eff.storage, aof := some aof' }, fs', ?_, rfl, hkeeps, ?_⟩
    · simp only [CommandRegistry.persist, hrec, haof, h.replay, hatt.enabled hen, Bool.not_true,
        Bool.or_false, Bool.false_eq_true, if_false, bind, EStateM.bind, hrun, hok]
      rfl
    · simp only [Effect.logged, hrec, Option.map_some, Option.getD_some]
      exact ⟨⟨aof', rfl, hatt'⟩, h.replay, h.snapshot, hsetup.trans h.setup, hwf, h.safe⟩

/-- A command that touches no file. -/
theorem execute_of_effect {order : IterationOrder} {now : TimePoint} {args : List Bytes}
    {name : CommandName} (hname : CommandName.ofArgs args = some name) {eff : Effect}
    (heff : Commands.effect name env.config ctx now args = some eff) :
    CommandRegistry.execute env order now ctx args = CommandRegistry.persist env.config eff ctx := by
  cases args with
  | nil => cases hname
  | cons head tail =>
    rw [CommandName.ofArgs_cons] at hname
    simp only [CommandRegistry.execute, hname, heff]

/-- A command on files. -/
theorem execute_of_special {order : IterationOrder} {now : TimePoint} {args : List Bytes}
    {name : CommandName} (hname : CommandName.ofArgs args = some name)
    (heff : Commands.effect name env.config ctx now args = none) :
    CommandRegistry.execute env order now ctx args = Commands.special name env order now ctx args := by
  cases args with
  | nil => cases hname
  | cons head tail =>
    rw [CommandName.ofArgs_cons] at hname
    simp only [CommandRegistry.execute, hname, heff]

/-- `SAVE` in a calm world: the snapshot and the manifest are both new, or one of the paths is not
safe and the manifest is the old one. -/
def SaveOutcome (env : Env) (order : IterationOrder) (now : TimePoint) (storage : StorageEngine)
    (log : Bytes) (fs fs' : FileSystem FileName) : Prop :=
  (SnapshotStore.ofConfig env.config).Committed (snapshotText order now storage)
      (manifestText env ⟨(SnapshotStore.ofConfig env.config).path, env.config.persistence.aofPath,
        log.length, unixMs now⟩) fs fs' ∨
    ((pathIsSafe (SnapshotStore.ofConfig env.config).path = true →
        pathIsSafe (SnapshotStore.ofConfig env.config).manifestPath = false) ∧
      (SnapshotStore.ofConfig env.config).Uncommitted (snapshotText order now storage) fs fs')

/-- The log is not one of the files that `SAVE` writes. -/
theorem SaveOutcome.attached {order : IterationOrder} {now : TimePoint} {storage : StorageEngine}
    {fs' : FileSystem FileName} {aof : Aof} (h : SaveOutcome env order now storage log fs fs')
    (hatt : aof.Attached fs log) : aof.Attached fs' log := by
  have hsep := SnapshotStore.separate_ofConfig env.config
  have htmp := hsep.tmp_ne
  have hne := hsep.ne
  simp only [List.mem_cons, not_or] at htmp hne
  rcases h with h | h
  · exact hatt.keeps h.keeps (by simp [Ne.symm htmp.1, Ne.symm hne.1])
  · exact hatt.keeps h.2.keeps (by simp [Ne.symm htmp.1])

/-- After a `SAVE` the log is what it was. -/
theorem Serving.save (h : Serving env ctx fs log) (hen : env.config.persistence.aofEnabled = true)
    (order : IterationOrder) (now : TimePoint) (args : List Bytes) (hlen : args.length = 1) :
    ∃ result ctx' fs', Commands.save env order now ctx args ⟨fs, []⟩ = .ok (result, ctx') ⟨fs', []⟩ ∧
      Serving env ctx' fs' log ∧
      (ctx'.storage = ctx.storage ∨ ctx'.storage = (ctx.storage.snapshot now).2) ∧
      SaveOutcome env order now ctx.storage log fs fs' := by
  obtain ⟨aof, haof, hatt⟩ := h.aof
  have hspec := SnapshotStore.spec_save (w := ⟨fs, []⟩) (SnapshotStore.separate_ofConfig env.config)
    order now ctx.storage (hatt.enabled hen)
  obtain ⟨⟨status, storage⟩, ⟨fs', plan⟩, hrun, hcalm, hout⟩ :=
    (hspec.mono (fun _ _ hq => hq) fun _ hc => absurd rfl hc.2).exists_ok
  obtain ⟨rfl, hsafe⟩ := hcalm rfl
  have hstorage : storage = ctx.storage ∨ storage = (ctx.storage.snapshot now).2 :=
    hout.elim (fun ho => .inr ho.2.1) fun ho => ho.2.1
  have hout' : SaveOutcome env order now ctx.storage log fs fs' := by
    rw [SaveOutcome, ← hatt.size]
    refine hout.imp (fun ho => ho.2.2) fun ho => ⟨fun hpath => ?_, ho.2.2⟩
    by_contra hmanifest
    have hok := hsafe hpath (by simpa using hmanifest)
    rw [ho.1] at hok
    cases hok
  have hserving : Serving env { ctx with storage } fs' log := by
    refine ⟨⟨aof, haof, hout'.attached hatt⟩, h.replay, h.snapshot, ?_, ?_, h.safe⟩
    · rcases hstorage with rfl | rfl
      · exact h.setup
      · exact (StorageEngine.scan_reclaimed h.wf now).setup.trans h.setup
    · rcases hstorage with rfl | rfl
      · exact h.wf
      · exact (StorageEngine.scan_reclaimed h.wf now).wf
  refine ⟨if status.isOk then Commands.ok else Commands.err status.message, { ctx with storage }, fs', ?_,
    hserving, hstorage, hout'⟩
  simp only [Commands.save, hlen, ne_eq, not_true_eq_false, if_false, h.snapshot, haof, bind,
    EStateM.bind, hrun]
  cases status.isOk <;> rfl

/-- After a rewrite the log is what it was, or the records of the keyspace. -/
theorem Serving.bgrewriteaof (h : Serving env ctx fs log)
    (hen : env.config.persistence.aofEnabled = true) (order : IterationOrder) (now : TimePoint)
    (args : List Bytes) (hlen : args.length = 1) :
    ∃ ctx' fs', Commands.bgrewriteaof env order now ctx args ⟨fs, []⟩ = .ok (Commands.ok, ctx') ⟨fs', []⟩ ∧
      Serving env ctx' fs' (snapshotText order now ctx.storage) ∧
      ctx'.storage = (ctx.storage.snapshot now).2 ∧
      RewriteStage (snapshotText order now ctx.storage) fs fs' ∧
      (pathIsSafe env.config.persistence.manifestPath = true → fs'.read .manifest = none) := by
  obtain ⟨aof, haof, hatt⟩ := h.aof
  have hspec := Aof.spec_rewrite (w := ⟨fs, []⟩) order now aof ctx.storage hen h.safe
  obtain ⟨⟨status, aof', storage⟩, ⟨fs', plan⟩, hrun, hstage, -, hcalm, -⟩ :=
    (hspec.mono (fun _ _ hq => hq) fun _ hc => absurd rfl hc.2).exists_ok
  obtain ⟨rfl, rfl, hok, hatt', hmanifest⟩ := hcalm rfl
  have hre := StorageEngine.scan_reclaimed h.wf now
  refine ⟨{ ctx with storage := (ctx.storage.snapshot now).2, aof := some aof' }, fs', ?_,
    ⟨⟨aof', rfl, hatt'⟩, h.replay, h.snapshot, hre.setup.trans h.setup, hre.wf, h.safe⟩, rfl, hstage,
    hmanifest⟩
  simp only at hok
  simp only [Commands.bgrewriteaof, hlen, ne_eq, not_true_eq_false, if_false, haof, Option.filter_some,
    hatt.enabled hen, if_true, bind, EStateM.bind, hrun, hok, Bool.not_true, Bool.false_eq_true]
  rfl

/-- What a request does in a calm world. -/
inductive Executed (env : Env) (order : IterationOrder) (now : TimePoint) (ctx : CommandContext)
    (fs : FileSystem FileName) (log : Bytes) (args : List Bytes) :
    CommandResult → CommandContext → FileSystem FileName → Bytes → Prop
  | data {name : CommandName} {eff : Effect} {ctx' : CommandContext} {fs' : FileSystem FileName}
      (hname : CommandName.ofArgs args = some name)
      (heff : Commands.effect name env.config ctx now args = some eff)
      (hstorage : ctx'.storage = eff.storage) (hkeeps : Keeps [.aof] fs fs') :
      Executed env order now ctx fs log args eff.result ctx' fs' (eff.logged log)
  | save {result : CommandResult} {ctx' : CommandContext} {fs' : FileSystem FileName}
      (hname : CommandName.ofArgs args = some .save)
      (hstorage : ctx'.storage = ctx.storage ∨ ctx'.storage = (ctx.storage.snapshot now).2)
      (hout : SaveOutcome env order now ctx.storage log fs fs') :
      Executed env order now ctx fs log args result ctx' fs' log
  | rewrite {result : CommandResult} {ctx' : CommandContext} {fs' : FileSystem FileName}
      (hname : CommandName.ofArgs args = some .bgrewriteaof)
      (hstorage : ctx'.storage = (ctx.storage.snapshot now).2)
      (hstage : RewriteStage (snapshotText order now ctx.storage) fs fs')
      (hmanifest : pathIsSafe env.config.persistence.manifestPath = true → fs'.read .manifest = none) :
      Executed env order now ctx fs log args result ctx' fs' (snapshotText order now ctx.storage)
  | other {result : CommandResult} {ctx' : CommandContext} (hstorage : ctx'.storage = ctx.storage) :
      Executed env order now ctx fs log args result ctx' fs log

/-- A context that differs in other fields only. -/
theorem Serving.congr {ctx' : CommandContext} (h : Serving env ctx fs log)
    (hstorage : ctx'.storage = ctx.storage) (haof : ctx'.aof = ctx.aof)
    (hreplay : ctx'.replay = ctx.replay) (hsnapshot : ctx'.snapshot = ctx.snapshot) :
    Serving env ctx' fs log :=
  ⟨haof ▸ h.aof, hreplay ▸ h.replay, hsnapshot ▸ h.snapshot, hstorage ▸ h.setup, hstorage ▸ h.wf, h.safe⟩

/-- `CONFIG` changes nothing but the log level and the metrics. -/
theorem configCmd_context (config : Config) (ctx : CommandContext) (args : List Bytes) :
    ∃ level metrics, (Commands.configCmd config ctx args).2
      = { ctx with logLevel := level, metrics } := by
  unfold Commands.configCmd
  dsimp only
  repeat' first | exact ⟨_, _, rfl⟩ | split

/-- `SHUTDOWN` changes nothing but the request for it. -/
theorem shutdown_idle (env : Env) (ctx : CommandContext) (args : List Bytes) :
    Idle (fun r : CommandResult × CommandContext =>
      ∃ requested, r.2 = { ctx with shutdownRequested := requested }) (Commands.shutdown env ctx args) := by
  unfold Commands.shutdown
  split_ifs
  · exact idle_pure ⟨_, rfl⟩
  · exact idle_pure ⟨_, rfl⟩
  · intro w
    cases haof : ctx.aof with
    | none => exact ⟨rfl, fun hc => ⟨hc, _, rfl⟩⟩
    | some aof =>
      rw [spec_bind, spec_discard]
      refine (sync_idle env.config.persistence aof w).mono (fun status w' h => ?_) fun w' h => h
      exact ⟨h.1, fun hc => ⟨(h.2 hc).1, _, rfl⟩⟩

/-- The commands that are not an effect on the storage. -/
theorem Serving.execute_special (h : Serving env ctx fs log)
    (hen : env.config.persistence.aofEnabled = true) (order : IterationOrder) {now : TimePoint}
    {head : Bytes} {tail : List Bytes} {name : CommandName}
    (hname : CommandName.find head = some name)
    (heff : Commands.effect name env.config ctx now (head :: tail) = none) :
    ∃ result ctx' fs' log',
      CommandRegistry.execute env order now ctx (head :: tail) ⟨fs, []⟩ = .ok (result, ctx') ⟨fs', []⟩ ∧
      Serving env ctx' fs' log' ∧
      Executed env order now ctx fs log (head :: tail) result ctx' fs' log' := by
  rw [execute_of_special (by rwa [CommandName.ofArgs_cons]) heff]
  cases name <;> simp only [Commands.effect, reduceCtorEq] at heff
  case config =>
    obtain ⟨level, metrics, hctx⟩ := configCmd_context env.config ctx (head :: tail)
    refine ⟨(Commands.configCmd env.config ctx (head :: tail)).1,
      (Commands.configCmd env.config ctx (head :: tail)).2, fs, log, rfl, ?_, .other ?_⟩
    · rw [hctx]
      exact h.congr rfl rfl rfl rfl
    · rw [hctx]
  case save =>
    cases tail with
    | nil =>
      obtain ⟨result, ctx', fs', hrun, hserving, hstorage, hout⟩ := h.save hen order now [head] rfl
      exact ⟨result, ctx', fs', log, hrun, hserving, .save hname hstorage hout⟩
    | cons arg tail => exact ⟨_, ctx, fs, log, rfl, h, .other rfl⟩
  case bgrewriteaof =>
    cases tail with
    | nil =>
      obtain ⟨ctx', fs', hrun, hserving, hstorage, hstage, hmanifest⟩ :=
        h.bgrewriteaof hen order now [head] rfl
      exact ⟨_, ctx', fs', _, hrun, hserving, .rewrite hname hstorage hstage hmanifest⟩
    | cons arg tail => exact ⟨_, ctx, fs, log, rfl, h, .other rfl⟩
  case shutdown =>
    have hspec := shutdown_idle env ctx (head :: tail) ⟨fs, []⟩
    obtain ⟨⟨result, ctx'⟩, ⟨fs', plan⟩, hrun, hfs, hcalm⟩ :=
      (hspec.mono (fun _ _ hq => hq) fun _ hc => absurd rfl hc.2).exists_ok
    obtain ⟨rfl, requested, hctx⟩ := hcalm rfl
    cases hfs
    cases hctx
    exact ⟨result, _, fs, log, hrun, h.congr rfl rfl rfl rfl, .other rfl⟩

/-- **A request to a serving process** in a calm world is answered, and the process keeps serving.
-/
theorem Serving.execute (h : Serving env ctx fs log)
    (hen : env.config.persistence.aofEnabled = true) (order : IterationOrder) (now : TimePoint)
    (args : List Bytes) :
    ∃ result ctx' fs' log',
      CommandRegistry.execute env order now ctx args ⟨fs, []⟩ = .ok (result, ctx') ⟨fs', []⟩ ∧
      Serving env ctx' fs' log' ∧ Executed env order now ctx fs log args result ctx' fs' log' := by
  cases args with
  | nil => exact ⟨_, ctx, fs, log, rfl, h, .other rfl⟩
  | cons head tail =>
    cases hname : CommandName.find head with
    | none =>
      refine ⟨⟨error (ascii "unknown command '" ++ head ++ ascii "'"), false⟩, ctx, fs, log, ?_, h,
        .other rfl⟩
      simp only [CommandRegistry.execute, hname]
      rfl
    | some name =>
      cases heff : Commands.effect name env.config ctx now (head :: tail) with
      | some eff =>
        have hw := Commands.effect_writes h.wf heff
        obtain ⟨ctx', fs', hrun, hstorage, hkeeps, hserving⟩ := h.persist hen hw.setup hw.wf
        have hname' : CommandName.ofArgs (head :: tail) = some name := hname
        exact ⟨eff.result, ctx', fs', _, by rw [execute_of_effect hname' heff, hrun], hserving,
          .data hname' heff hstorage hkeeps⟩
      | none => exact h.execute_special hen order hname heff

/-! ## Replay -/

/-- Replay records one after another. -/
def applyRecords (env : Env) (now : ℤ) (P : StorageEngine) (records : List (List Bytes)) :
    Option StorageEngine :=
  records.foldlM (applyRecord env now) P

/-- Records and more records. -/
theorem applyRecords_append (now : ℤ) (P : StorageEngine) (records more : List (List Bytes)) :
    applyRecords env now P (records ++ more)
      = (applyRecords env now P records).bind fun P' => applyRecords env now P' more := by
  simp [applyRecords, List.foldlM_append]

/-- A record that replays without an error is accepted by the callback, and leaves the files alone.
-/
theorem replayCommand_of_applyRecord {order : IterationOrder} {now : ℤ} {P P' : StorageEngine}
    {record : List Bytes} (h : applyRecord env now P record = some P') (fs : FileSystem FileName) :
    replayCommand env order now (replayContext env P, fs) record
      = (.ok, replayContext env P', fs) := by
  simp only [applyRecord, Option.bind_eq_bind, Option.bind_eq_some_iff] at h
  obtain ⟨name, hname, eff, heff, hif⟩ := h
  split_ifs at hif with herr
  cases hif
  have hexec : CommandRegistry.execute env order now (replayContext env P) record ⟨fs, []⟩
      = .ok (eff.result, replayContext env eff.storage) ⟨fs, []⟩ := by
    rw [execute_of_effect hname heff]
    simp only [CommandRegistry.persist]
    cases eff.record <;> rfl
  simp [replayCommand, hexec, herr]

/-- Records that replay without an error are fed to the callback one after another. -/
theorem feed_of_applyRecords {order : IterationOrder} {now : ℤ} {P P' : StorageEngine}
    {records : List (List Bytes)} (h : applyRecords env now P records = some P')
    (fs : FileSystem FileName) (commands : ℕ) :
    feed (replayCommand env order now) records (replayContext env P, fs) commands
      = .inl ((replayContext env P', fs), commands + records.length) := by
  induction records generalizing P commands with
  | nil =>
    cases h
    rfl
  | cons record records ih =>
    simp only [applyRecords, List.foldlM_cons, Option.bind_eq_bind, Option.bind_eq_some_iff] at h
    obtain ⟨P₁, hone, hrest⟩ := h
    simp only [feed, replayCommand_of_applyRecord hone, Status.isOk_ok, if_true, ih hrest,
      List.length_cons]
    congr 2
    omega

/-! ## Replay within the memory limit -/

/-- The record is of a write command. -/
def IsWrite (record : List Bytes) : Prop :=
  ∃ name, CommandName.ofArgs record = some name ∧
    ∀ shardCount now, (Commands.mutation name shardCount now record).isSome = true

/-- What a command logs is a write command. -/
theorem Commands.Logs.isWrite {now : TimePoint} {e : StorageEngine} {name : CommandName}
    {args record : List Bytes} {eff : Effect} (hname : CommandName.ofArgs args = some name)
    (h : Logs now e name args eff) (hrecord : eff.record = some record) : IsWrite record := by
  have hset : CommandName.find (ascii "SET") = some .set := by decide
  have hpexpireat : CommandName.find (ascii "PEXPIREAT") = some .pexpireat := by decide
  have hflushdb : CommandName.find (ascii "FLUSHDB") = some .flushdb := by decide
  cases h <;> cases hrecord
  case set => exact ⟨.set, hset, fun _ _ => rfl⟩
  case expire | pexpire => exact ⟨.pexpireat, hpexpireat, fun _ _ => rfl⟩
  case flushdb => exact ⟨.flushdb, hflushdb, fun _ _ => rfl⟩
  all_goals exact ⟨_, hname, fun _ _ => rfl⟩

/-- A record with room for its charge. -/
theorem applyRecord_unlimit {now : ℤ} {P Q : StorageEngine} {record : List Bytes} (hwrites : IsWrite record)
    (hroom : P.HasRoom (recordCharge record))
    (h : applyRecord env now P.unlimit record = some Q) :
    ∃ P', applyRecord env now P record = some P' ∧ P'.unlimit = Q ∧
      StorageEngine.Spends (recordCharge record) P P' := by
  obtain ⟨name, hname, hsome⟩ := hwrites
  obtain ⟨m, hm⟩ := Option.isSome_iff_exists.mp (hsome P.setup.shardCount now)
  rw [recordCharge_of_name hname] at hroom ⊢
  obtain ⟨hrun, hspends⟩ := Mutation.run_unlimit now (Mutation.costs_mutation hm) hroom
  have heff : Commands.effect name env.config (replayContext env P) now record
      = some (m.run now P) := Mutation.effect_eq_run hm
  have heff' : Commands.effect name env.config (replayContext env P.unlimit) now record
      = some (m.run now P.unlimit) := Mutation.effect_eq_run hm
  simp only [applyRecord, hname, heff', hrun, Option.bind_eq_bind, Option.bind_some] at h
  simp only [applyRecord, hname, heff, Option.bind_eq_bind, Option.bind_some]
  split_ifs at h ⊢
  cases h
  exact ⟨_, rfl, rfl, hspends⟩

/-- **A replay within the memory limit** does what it does without one. -/
theorem applyRecords_unlimit {now : ℤ} {P Q : StorageEngine} {records : List (List Bytes)}
    (hwrites : ∀ record ∈ records, IsWrite record)
    (hroom : P.HasRoom (records.map recordCharge).sum)
    (h : applyRecords env now P.unlimit records = some Q) :
    ∃ P', applyRecords env now P records = some P' ∧ P'.unlimit = Q := by
  induction records generalizing P with
  | nil =>
    cases h
    exact ⟨P, rfl, rfl⟩
  | cons record records ih =>
    rw [List.map_cons, List.sum_cons] at hroom
    obtain ⟨Q₁, hfirst, hrest⟩ := Option.bind_eq_some_iff.mp h
    obtain ⟨P₁, happly, rfl, hspends⟩ :=
      applyRecord_unlimit (hwrites record List.mem_cons_self) (hroom.mono (Nat.le_add_right _ _)) hfirst
    obtain ⟨P', hall, hP'⟩ := ih (fun r hr => hwrites r (List.mem_cons_of_mem _ hr))
      (hspends.hasRoom hroom) hrest
    exact ⟨P', Option.bind_eq_some_iff.mpr ⟨P₁, happly, hall⟩, hP'⟩

end VeloxDb
