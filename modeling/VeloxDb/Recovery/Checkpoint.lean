import VeloxDb.Persistence.Limits
import VeloxDb.Persistence.Manifest
import VeloxDb.Recovery.Untimed

/-!
# Recovery from a checkpoint

`Recoverable env fs records K` is what ties the three files together: the log holds `records`, whose
replay from nothing gives `K`, and if the manifest names the files, its offset cuts the records in
two, the snapshot holds what the first part gives, and the second part leads from there to `K`.
Recovery from such files gives `K` (`Recoverable.recover`), and every step of a server without
deadlines and without failures keeps the files so (`Durable.step`).
-/

namespace VeloxDb

open Resp Util FileProgram FileSystem Recovery

/-! ## Loading a snapshot -/

/-- Loading the text as a snapshot, at any time, gives a fresh engine the keyspace `K`. -/
def Loads (env : Env) (text : Bytes) (K : Keyspace) : Prop :=
  ∀ T, ∃ P, (SnapshotStore.ofConfig env.config).load T (some text) (freshStorage env) = (.ok, P) ∧
    StorageEngine.Becomes (freshStorage env) P K

/-- The store reads with the limits of the settings. -/
theorem SnapshotStore.ofConfig_protocol (config : Config) :
    (SnapshotStore.ofConfig config).protocol = config.protocol := by
  unfold ofConfig SnapshotStore.new
  split_ifs <;> rfl

/-- A configured manifest is the one that a rewrite removes. -/
theorem SnapshotStore.ofConfig_manifest {config : Config} (h : config.persistence.manifestPath ≠ []) :
    (SnapshotStore.ofConfig config).manifestFile = .manifest ∧
      (SnapshotStore.ofConfig config).manifestPath = config.persistence.manifestPath := by
  simp [ofConfig, SnapshotStore.new, h]

variable {env : Env} {L : StorageEngine}

/-- A snapshot loads its keyspace. -/
theorem Loads.of_snapshot (hpath : pathIsSafe (SnapshotStore.ofConfig env.config).path = true)
    (hL : L.WF) (hsetup : L.setup = (freshStorage env).setup) (hK : L.keyspace.Untimed)
    {order : IterationOrder} {now : TimePoint}
    (hlim : ∀ record ∈ (order.arrange (L.snapshot now).1).flatMap snapshotRecords,
      WithinLimits (parserOptionsFromConfig env.config.protocol) record)
    (hfit : FileFits env (snapshotText order now L)) :
    Loads env (snapshotText order now L) L.keyspace := by
  intro T
  obtain ⟨P, hb, -, hfeed⟩ := reload_untimed hL hsetup hK order now T (wf_freshStorage env) rfl
    (keyspace_freshStorage env)
  refine ⟨P, SnapshotStore.load_of_feed hpath ?_ ?_ hfeed, hb⟩
  · rwa [SnapshotStore.ofConfig_protocol]
  · rw [SnapshotStore.ofConfig_protocol]
    exact hfit.request

/-! ## The files of a server -/

/-- Nothing is stored. -/
protected abbrev Keyspace.none : Keyspace := fun _ => Option.none

/-- The cut that a checkpoint makes in the records of the log. -/
structure Checkpoint (env : Env) (fs : FileSystem FileName) (records : List (List Bytes))
    (K : Keyspace) (m : Manifest) (before after : List (List Bytes)) (saved : Keyspace) : Prop where
  split : records = before ++ after
  offset : m.aofOffset = (before.flatMap encodeCommand).length
  snapshot : ∃ text, fs.read .snapshot = some text ∧ Loads env text saved
  path : pathIsSafe (SnapshotStore.ofConfig env.config).path = true
  reached : Replays env before Keyspace.none saved
  resumed : Replays env after saved K

/-- What the files hold: a log that replays to the keyspace, and, if a manifest is in force, the
checkpoint that it names. -/
structure Recoverable (env : Env) (fs : FileSystem FileName) (records : List (List Bytes))
    (K : Keyspace) : Prop where
  log : fs.read .aof = some (records.flatMap encodeCommand)
  within : ∀ record ∈ records, WithinLimits (parserOptionsFromConfig env.config.protocol) record
  untimed : K.Untimed
  replays : Replays env records Keyspace.none K
  checkpoint : ∀ m, Names env fs m →
    ∃ before after saved, Checkpoint env fs records K m before after saved

/-- The manifest is not the log. -/
theorem manifestFile_notMem (env : Env) :
    (SnapshotStore.ofConfig env.config).manifestFile ∉ [FileName.aof] := by
  have hsep := (SnapshotStore.separate_ofConfig env.config).ne
  simp only [List.mem_cons, not_or] at hsep
  simpa using hsep.1

/-- No manifest names the files of this server and an offset within the log. -/
def Unreferenced (env : Env) (fs : FileSystem FileName) : Prop :=
  ∀ m, Names env fs m → ((fs.read .aof).map List.length).getD 0 < m.aofOffset

/-- Without a manifest that fits, recovery replays the log. -/
theorem Unreferenced.recover_eq {fs : FileSystem FileName} (h : Unreferenced env fs)
    (order : IterationOrder) (T : TimePoint) : recover env order T fs
      = ((replayLog env order T fs).1.status, (replayLog env order T fs).2) :=
  recover_of_stale fun m hm hoff => absurd (h m hm) (Nat.not_lt.mpr hoff)

namespace Recoverable

variable {fs fs' : FileSystem FileName} {records : List (List Bytes)} {K : Keyspace}

/-- A replay of records of the log from some engine on. -/
theorem replayFile_of_replays {content : Bytes} {start : ℕ} {K₁ : Keyspace}
    (hsafe : pathIsSafe env.config.persistence.aofPath = true)
    (hlim : ∀ record ∈ records, WithinLimits (parserOptionsFromConfig env.config.protocol) record)
    (hlen : (records.flatMap encodeCommand).length ≤ env.config.protocol.maxRequestBytes)
    (hoff : start ≤ content.length) (hdrop : content.drop start = records.flatMap encodeCommand)
    (hreplays : Replays env records K₁ K) {P : StorageEngine}
    (hP : StorageEngine.Becomes (freshStorage env) P K₁) (order : IterationOrder) (T : TimePoint)
    (fs : FileSystem FileName) :
    ∃ P', replayFile env.config.persistence.aofPath (some content) env.config.protocol
        (replayCommand env order T) start (replayContext env P, fs)
          = ({ commands := records.length }, replayContext env P', fs) ∧
      StorageEngine.Becomes (freshStorage env) P' K := by
  obtain ⟨P', happly, hb⟩ := hreplays T P hP.wf hP.setup hP.keyspace
  have hfeed : feed (replayCommand env order T) records (replayContext env P, fs) 0
      = .inl ((replayContext env P', fs), records.length) := by
    rw [feed_of_applyRecords happly, Nat.zero_add]
  exact ⟨P', replayFile_of_feed hsafe hoff hdrop hlim hlen hfeed, hP.trans hb⟩

/-- The replay of the whole log. -/
theorem replayLog_of_replays (hsafe : pathIsSafe env.config.persistence.aofPath = true)
    (hlog : fs.read .aof = some (records.flatMap encodeCommand))
    (hlim : ∀ record ∈ records, WithinLimits (parserOptionsFromConfig env.config.protocol) record)
    (hfit : FileFits env (records.flatMap encodeCommand))
    (hreplays : Replays env records Keyspace.none K) (order : IterationOrder) (T : TimePoint) :
    ∃ P, replayLog env order T fs = ({ commands := records.length }, replayContext env P, fs) ∧
      StorageEngine.Becomes (freshStorage env) P K := by
  have hdrop : (records.flatMap encodeCommand).drop 0 = records.flatMap encodeCommand := rfl
  rw [replayLog, hlog]
  exact replayFile_of_replays hsafe hlim hfit.request (Nat.zero_le _) hdrop hreplays
    ⟨rfl, wf_freshStorage env, keyspace_freshStorage env⟩ order T fs

/-- Recovery from the log alone. -/
theorem recover_of_unreferenced (hun : Unreferenced env fs)
    (hsafe : pathIsSafe env.config.persistence.aofPath = true)
    (hlog : fs.read .aof = some (records.flatMap encodeCommand))
    (hlim : ∀ record ∈ records, WithinLimits (parserOptionsFromConfig env.config.protocol) record)
    (hfit : FileFits env (records.flatMap encodeCommand))
    (hreplays : Replays env records Keyspace.none K) (order : IterationOrder) (T : TimePoint) :
    ∃ P, Recovery.recover env order T fs = (.ok, replayContext env P, fs) ∧
      StorageEngine.Becomes (freshStorage env) P K := by
  obtain ⟨P, hreplay, hP⟩ := replayLog_of_replays hsafe hlog hlim hfit hreplays order T
  exact ⟨P, by rw [hun.recover_eq, hreplay], hP⟩

/-- **Recovery** from such files gives the keyspace, whichever way it takes. -/
theorem recover (h : Recoverable env fs records K)
    (hsafe : pathIsSafe env.config.persistence.aofPath = true)
    (hfit : FileFits env (records.flatMap encodeCommand)) (order : IterationOrder) (T : TimePoint) :
    ∃ P, Recovery.recover env order T fs = (.ok, replayContext env P, fs) ∧
      StorageEngine.Becomes (freshStorage env) P K := by
  by_cases hm : ∃ m, Names env fs m
  · obtain ⟨m, hm⟩ := hm
    obtain ⟨before, after, saved, hcut⟩ := h.checkpoint m hm
    obtain ⟨text, htext, hloads⟩ := hcut.snapshot
    obtain ⟨P, hload, hP⟩ := hloads T
    have hlog : records.flatMap encodeCommand
        = before.flatMap encodeCommand ++ after.flatMap encodeCommand := by
      rw [hcut.split, List.flatMap_append]
    have hlen := hfit.request
    rw [hlog, List.length_append] at hlen
    have hoff : m.aofOffset ≤ (records.flatMap encodeCommand).length := by
      rw [hlog, hcut.offset, List.length_append]
      omega
    have hdrop : (records.flatMap encodeCommand).drop m.aofOffset = after.flatMap encodeCommand := by
      rw [hlog, hcut.offset, List.drop_left]
    obtain ⟨P', hreplay, hP'⟩ := replayFile_of_replays hsafe
      (fun record hrecord => h.within record (by simp [hcut.split, hrecord])) (by omega) hoff hdrop
      hcut.resumed hP order T fs
    refine ⟨P', ?_, hP'⟩
    rw [recover_of_names hm (by simpa [h.log] using hoff) htext hload, h.log]
    simp only [hreplay]
  · have hun : Unreferenced env fs := fun m h' => absurd ⟨m, h'⟩ hm
    exact recover_of_unreferenced hun hsafe h.log h.within hfit h.replays order T

/-! ### What keeps the files recoverable -/

/-- Other files do not matter. -/
theorem congr (h : Recoverable env fs records K) (haof : fs'.read .aof = fs.read .aof)
    (hsnapshot : fs'.read .snapshot = fs.read .snapshot)
    (hmanifest : fs'.read (SnapshotStore.ofConfig env.config).manifestFile
      = fs.read (SnapshotStore.ofConfig env.config).manifestFile) :
    Recoverable env fs' records K := by
  refine ⟨haof.trans h.log, h.within, h.untimed, h.replays, fun m hm => ?_⟩
  obtain ⟨before, after, saved, hcut⟩ :=
    h.checkpoint m ⟨hmanifest ▸ hm.read, hm.snapshot, hm.aof⟩
  exact ⟨before, after, saved, hcut.split, hcut.offset, hsnapshot ▸ hcut.snapshot, hcut.path,
    hcut.reached, hcut.resumed⟩

/-- A record is appended to the log. -/
theorem append (h : Recoverable env fs records K) (hkeeps : Keeps [.aof] fs fs') {record : List Bytes}
    {K' : Keyspace} (hlog : fs'.read .aof = some ((records ++ [record]).flatMap encodeCommand))
    (hlim : WithinLimits (parserOptionsFromConfig env.config.protocol) record) (huntimed : K'.Untimed)
    (hreplays : Replays env [record] K K') : Recoverable env fs' (records ++ [record]) K' := by
  refine ⟨hlog, ?_, huntimed, h.replays.append hreplays, fun m hm => ?_⟩
  · simpa only [List.mem_append, List.mem_singleton, or_imp, forall_and, forall_eq] using
      ⟨h.within, hlim⟩
  · obtain ⟨before, after, saved, hcut⟩ :=
      h.checkpoint m ⟨hkeeps.read (manifestFile_notMem env) ▸ hm.read, hm.snapshot, hm.aof⟩
    refine ⟨before, after ++ [record], saved, by rw [hcut.split, List.append_assoc], hcut.offset, ?_,
      hcut.path, hcut.reached, hcut.resumed.append hreplays⟩
    rw [hkeeps.read (by decide)]
    exact hcut.snapshot

/-- The keys of the keyspace have been read by the parser, as has the name of a command. -/
theorem keys (h : Recoverable env fs records K) {k : Bytes} {x : Item} (hx : K k = some x) :
    k.length ≤ env.config.protocol.maxValueSize ∧ 3 ≤ env.config.protocol.maxValueSize :=
  h.replays.keys h.within hx

variable {ctx ctx' : CommandContext} {order : IterationOrder} {now : TimePoint}

/-- `SAVE`. -/
theorem save (h : Recoverable env fs records ctx.storage.keyspace) (hwf : ctx.storage.WF)
    (hsetup : ctx.storage.setup = (freshStorage env).setup)
    (helements : 3 ≤ env.config.protocol.maxArrayElements)
    (hout : SaveOutcome env order now ctx.storage (records.flatMap encodeCommand) fs fs')
    (hfit : ∀ text, fs'.read .snapshot = some text → FileFits env text)
    (hlog : fs'.read .aof = some (records.flatMap encodeCommand)) :
    Recoverable env fs' records ctx.storage.keyspace := by
  refine ⟨hlog, h.within, h.untimed, h.replays, fun m hm => ?_⟩
  rcases hout with hcommitted | ⟨hpaths, huncommitted⟩
  · -- the new manifest names the end of the log
    have hread := hm.read
    rw [hcommitted.manifest] at hread
    have hoffset : m.aofOffset = (records.flatMap encodeCommand).length :=
      SnapshotStore.aofOffset_of_readManifest hread hm.snapshot hm.aof
    have hfits := hfit _ hcommitted.snapshot
    have hwithin := within_snapshotRecords hwf hsetup h.untimed helements (fun _ _ hx => h.keys hx) hfits
    exact ⟨records, [], ctx.storage.keyspace, (List.append_nil _).symm, hoffset,
      ⟨_, hcommitted.snapshot, .of_snapshot hcommitted.safe hwf hsetup h.untimed hwithin hfits⟩,
      hcommitted.safe, h.replays, .nil _ _⟩
  · -- an old manifest would say that both paths are safe
    have hne : (SnapshotStore.ofConfig env.config).manifestFile ∉
        [.snapshotTmp, .snapshot, (SnapshotStore.ofConfig env.config).manifestTmpFile] := by
      have hsep := SnapshotStore.separate_ofConfig env.config
      have htmp := hsep.tmp_ne
      have hman := hsep.ne
      simp only [List.mem_cons, not_or] at htmp hman ⊢
      exact ⟨hman.2.2.1, hman.2.2.2.1, Ne.symm htmp.2.2.2.2.1, by simp⟩
    obtain ⟨before, after, saved, hcut⟩ :=
      h.checkpoint m ⟨huncommitted.keeps.read hne ▸ hm.read, hm.snapshot, hm.aof⟩
    have hpath := SnapshotStore.safe_of_readManifest hm.read
    rw [hpaths hcut.path] at hpath
    cases hpath

/-- `BGREWRITEAOF`. -/
theorem rewrite (h : Recoverable env fs records ctx.storage.keyspace) (hwf : ctx.storage.WF)
    (hsetup : ctx.storage.setup = (freshStorage env).setup)
    (helements : 3 ≤ env.config.protocol.maxArrayElements)
    (hpath : env.config.persistence.manifestPath ≠ [])
    (hlog : fs'.read .aof = some (snapshotText order now ctx.storage))
    (hfit : FileFits env (snapshotText order now ctx.storage))
    (hmanifest : pathIsSafe env.config.persistence.manifestPath = true → fs'.read .manifest = none) :
    Recoverable env fs' ((order.arrange (ctx.storage.snapshot now).1).flatMap snapshotRecords)
      ctx.storage.keyspace := by
  refine ⟨hlog, within_snapshotRecords hwf hsetup h.untimed helements (fun _ _ hx => h.keys hx) hfit,
    h.untimed, .of_snapshot hwf hsetup h.untimed order now, fun m hm => ?_⟩
  have hstore := SnapshotStore.ofConfig_manifest hpath
  have hread := hm.read
  have hsafe := SnapshotStore.safe_of_readManifest hread
  rw [hstore.1, hmanifest (hstore.2 ▸ hsafe)] at hread
  simp [SnapshotStore.readManifest] at hread

end Recoverable

/-! ## Runs without deadlines and failures -/

/-- All calls succeed and no deadline is set. The commands are those that set none: `SET` without an
expiry, `MSET` unless it is refused, `DEL`, `INCR`, `DECR`, `APPEND`, `FLUSHDB`, `SAVE`,
`BGREWRITEAOF` and all that do not write. -/
def Plain : Event → Option CommandResult → Prop
  | .request _ _ plan args, reply => plan = [] ∧ ∀ name ∈ CommandName.ofArgs args,
      Commands.setsExpiry name args = false ∧
        (name = .mset → reply.any CommandResult.isError = false)
  | .activeExpire _, _ => True
  | .restart _ _ plan, _ => plan = []

/-- The record that a request appends to the log. -/
def loggedRecord (env : Env) (s : Server) : Event → Option (List Bytes)
  | .request now _ _ args => do
    let ctx ← s.process
    let name ← CommandName.ofArgs args
    let eff ← Commands.effect name env.config ctx now args
    eff.record
  | .activeExpire _ | .restart _ _ _ => none

/-- The log and the snapshot fit. -/
def FilesFit (env : Env) (fs : FileSystem FileName) : Prop :=
  ∀ name ∈ [FileName.aof, .snapshot], ∀ text ∈ fs.read name, FileFits env text

/-- A plain step: what it logs is within the limits of the parser, and the files after it fit. -/
def PlainStep (env : Env) (s : Server) (e : Event) (reply : Option CommandResult) (s' : Server) : Prop :=
  Plain e reply ∧
    (∀ record ∈ loggedRecord env s e,
      WithinLimits (parserOptionsFromConfig env.config.protocol) record) ∧
    FilesFit env s'.fs

instance : ∀ e reply, Decidable (Plain e reply)
  | .request _ _ _ _, _ => inferInstanceAs (Decidable (_ ∧ _))
  | .activeExpire _, _ => .isTrue trivial
  | .restart _ _ plan, _ => inferInstanceAs (Decidable (plan = []))

instance (env : Env) (fs : FileSystem FileName) : Decidable (FilesFit env fs) :=
  inferInstanceAs (Decidable (∀ name ∈ _, ∀ text ∈ fs.read name, FileFits env text))

instance (env : Env) (s : Server) (e : Event) (reply : Option CommandResult) (s' : Server) :
    Decidable (PlainStep env s e reply s') := inferInstanceAs (Decidable (_ ∧ _ ∧ _))

/-- There is no process and no file, or the process serves and its files are recoverable. -/
def Durable (env : Env) (s : Server) : Prop :=
  match s.process with
  | none => s.fs = .empty
  | some ctx => FilesFit env s.fs ∧ ∃ records,
      Serving env ctx s.fs (records.flatMap encodeCommand) ∧
      Recoverable env s.fs records ctx.storage.keyspace

section Runs

variable {fs fs' : FileSystem FileName} {records : List (List Bytes)} {ctx ctx' : CommandContext}
  {now : TimePoint} {args : List Bytes}

/-- The log of a running server. -/
theorem Serving.log {log : Bytes} (h : Serving env ctx fs log) : fs.read .aof = some log := by
  obtain ⟨aof, -, hatt⟩ := h.aof
  exact hatt.contents

/-- The log of a running server is short enough to be read. -/
theorem Serving.fit {log : Bytes} (h : Serving env ctx fs log) (hfit : FilesFit env fs) :
    FileFits env log :=
  hfit .aof (by simp) _ h.log

/-- A command on data. -/
theorem Recoverable.data (h : Recoverable env fs records ctx.storage.keyspace)
    (hserving : Serving env ctx fs (records.flatMap encodeCommand)) {name : CommandName} {eff : Effect}
    (hname : CommandName.ofArgs args = some name)
    (heff : Commands.effect name env.config ctx now args = some eff)
    (huntimed : Commands.setsExpiry name args = false)
    (hmset : name = .mset → eff.result.isError = false)
    (hwithin : ∀ record, eff.record = some record →
      WithinLimits (parserOptionsFromConfig env.config.protocol) record)
    (hstorage : ctx'.storage = eff.storage) (hkeeps : Keeps [.aof] fs fs')
    (hserving' : Serving env ctx' fs' (eff.logged (records.flatMap encodeCommand))) :
    ∃ records', Serving env ctx' fs' (records'.flatMap encodeCommand) ∧
      Recoverable env fs' records' ctx'.storage.keyspace := by
  rcases Commands.effect_cases hserving.wf heff with ⟨hrec, hre⟩ | hlogs | ⟨rfl, herr, -⟩
  · rw [Effect.logged, hrec, Option.map_none, Option.getD_none, List.append_nil] at hserving'
    refine ⟨records, hserving', ?_⟩
    rw [hstorage, h.untimed.reclaimed hre]
    exact h.congr (hserving'.log.trans h.log.symm) (hkeeps.read (by decide))
      (hkeeps.read (manifestFile_notMem env))
  · obtain ⟨record, hrec, hreplays⟩ :=
      Replays.of_logs hserving.wf hserving.setup h.untimed hname huntimed hlogs
    have hlog : eff.logged (records.flatMap encodeCommand)
        = (records ++ [record]).flatMap encodeCommand := by
      simp [Effect.logged, hrec]
    rw [hlog] at hserving'
    refine ⟨records ++ [record], hserving', ?_⟩
    rw [hstorage]
    exact h.append hkeeps hserving'.log (hwithin record hrec)
      (h.untimed.writes huntimed (hlogs.writes hserving.wf)) hreplays
  · rw [hmset rfl] at herr
    cases herr

/-- A start on recoverable files. -/
theorem Recoverable.start (h : Recoverable env fs records ctx.storage.keyspace)
    (hserving : Serving env ctx fs (records.flatMap encodeCommand)) (hfit : FilesFit env fs)
    (hen : env.config.persistence.aofEnabled = true) (now : TimePoint) (order : IterationOrder) :
    ∃ ctx' fs', start env order now ⟨fs, []⟩ = .ok (.ok ctx') ⟨fs', []⟩ ∧
      Serving env ctx' fs' (records.flatMap encodeCommand) ∧
      Recoverable env fs' records ctx'.storage.keyspace := by
  obtain ⟨P, hrec, hP⟩ := h.recover hserving.safe (hserving.fit hfit) order now
  obtain ⟨ctx', fs', hstart, hstorage, hkeeps, hserving'⟩ :=
    start_of_recover hen hserving.safe hrec hP.wf hP.setup
  rw [h.log, Option.getD_some] at hserving'
  refine ⟨ctx', fs', hstart, hserving', ?_⟩
  rw [hstorage, hP.keyspace]
  exact h.congr (hserving'.log.trans h.log.symm) (hkeeps.read (by decide))
      (hkeeps.read (manifestFile_notMem env))

/-- A server that has just started on no files has an empty log, which replays to no keys. -/
theorem Recoverable.first (hserving : Serving env ctx fs []) (hstorage : ctx.storage = freshStorage env)
    (hkeeps : Keeps [.aof] .empty fs) : Recoverable env fs [] ctx.storage.keyspace := by
  rw [hstorage, keyspace_freshStorage]
  refine ⟨hserving.log, by simp, (fun _ _ hx => nomatch hx), .nil _ _, fun m hm => ?_⟩
  have hread := hm.read
  rw [hkeeps.read (manifestFile_notMem env)] at hread
  simp [SnapshotStore.readManifest] at hread

/-- A start keeps it. -/
theorem Durable.start {s : Server} (h : Durable env s)
    (hen : env.config.persistence.aofEnabled = true) (now : TimePoint) (order : IterationOrder)
    (hfit : FilesFit env (s.step env (.restart now order [])).2.fs) :
    Durable env (s.step env (.restart now order [])).2 := by
  obtain ⟨process, fs, clock⟩ := s
  cases process with
  | some ctx =>
    obtain ⟨hfit₀, records, hserving, hrec⟩ := h
    obtain ⟨ctx', fs', hstart, hserving', hrec'⟩ := hrec.start hserving hfit₀ hen now order
    simp only [Server.step, hstart] at hfit ⊢
    exact ⟨hfit, records, hserving', hrec'⟩
  | none =>
    obtain rfl : fs = .empty := h
    cases hsafe : pathIsSafe env.config.persistence.aofPath with
    | false =>
      obtain ⟨status, hstart⟩ := start_of_unsafe hen hsafe (recover_empty env order now)
      simp only [Server.step, hstart]
      rfl
    | true =>
      obtain ⟨ctx, fs', hstart, hstorage, hkeeps, hserving⟩ :=
        start_of_recover hen hsafe (recover_empty env order now) (wf_freshStorage env) rfl
      simp only [Server.step, hstart] at hfit ⊢
      exact ⟨hfit, [], hserving, .first hserving hstorage hkeeps⟩

/-- A plain request to a serving process. -/
theorem Recoverable.execute (h : Recoverable env fs records ctx.storage.keyspace)
    (hserving : Serving env ctx fs (records.flatMap encodeCommand))
    (hen : env.config.persistence.aofEnabled = true)
    (hpath : env.config.persistence.manifestPath ≠ [])
    (helements : 3 ≤ env.config.protocol.maxArrayElements) (order : IterationOrder) (now : TimePoint)
    (args : List Bytes) :
    ∃ result ctx' fs',
      CommandRegistry.execute env order now ctx args ⟨fs, []⟩ = .ok (result, ctx') ⟨fs', []⟩ ∧
      ((∀ name, CommandName.ofArgs args = some name → Commands.setsExpiry name args = false ∧
          (name = .mset → result.isError = false)) →
        (∀ name eff record, CommandName.ofArgs args = some name →
          Commands.effect name env.config ctx now args = some eff → eff.record = some record →
          WithinLimits (parserOptionsFromConfig env.config.protocol) record) →
        FilesFit env fs' →
        ∃ records', Serving env ctx' fs' (records'.flatMap encodeCommand) ∧
          Recoverable env fs' records' ctx'.storage.keyspace) := by
  obtain ⟨result, ctx', fs', log', hrun, hserving', hexec⟩ := hserving.execute hen order now args
  refine ⟨result, ctx', fs', hrun, fun huntimed hwithin hfit => ?_⟩
  cases hexec with
  | data hname heff hstorage hkeeps =>
    exact h.data hserving hname heff (huntimed _ hname).1 (huntimed _ hname).2
      (fun record hrec => hwithin _ _ record hname heff hrec) hstorage hkeeps hserving'
  | save hname hstorage hout =>
    refine ⟨records, hserving', ?_⟩
    have hK : ctx'.storage.keyspace = ctx.storage.keyspace := by
      rcases hstorage with hstorage | hstorage <;> rw [hstorage]
      exact h.untimed.reclaimed (StorageEngine.scan_reclaimed hserving.wf now)
    rw [hK]
    exact h.save hserving.wf hserving.setup helements hout (hfit .snapshot (by simp)) hserving'.log
  | rewrite hname hstorage hstage hmanifest =>
    have hK : (ctx.storage.snapshot now).2.keyspace = ctx.storage.keyspace :=
      h.untimed.reclaimed (StorageEngine.scan_reclaimed hserving.wf now)
    refine ⟨_, hserving', ?_⟩
    rw [hstorage, hK]
    exact h.rewrite hserving.wf hserving.setup helements hpath hserving'.log (hserving'.fit hfit)
      hmanifest
  | other hstorage => exact ⟨records, hserving', hstorage ▸ h⟩

/-- Every event keeps it. -/
theorem Durable.step {s : Server} (h : Durable env s)
    (hen : env.config.persistence.aofEnabled = true)
    (hpath : env.config.persistence.manifestPath ≠ [])
    (helements : 3 ≤ env.config.protocol.maxArrayElements) {e : Event}
    (hplain : PlainStep env s e (s.step env e).1 (s.step env e).2) :
    Durable env (s.step env e).2 := by
  obtain ⟨hplain, hwithin, hfit⟩ := hplain
  cases e with
  | restart now order plan =>
    obtain rfl : plan = [] := hplain
    exact h.start hen now order hfit
  | activeExpire now =>
    obtain ⟨process, fs, clock⟩ := s
    cases process with
    | none => exact h
    | some ctx =>
      obtain ⟨hfit₀, records, hserving, hrec⟩ := h
      have hre := StorageEngine.activeExpire_reclaimed hserving.wf
        env.config.expiration.samplePerShard now
      refine ⟨hfit₀, records, ⟨hserving.aof, hserving.replay, hserving.snapshot,
        hre.setup.trans hserving.setup, hre.wf, hserving.safe⟩, ?_⟩
      simp only
      rw [hrec.untimed.reclaimed hre]
      exact hrec
  | request now order plan args =>
    obtain ⟨rfl, huntimed⟩ := hplain
    obtain ⟨process, fs, clock⟩ := s
    cases process with
    | none => exact h
    | some ctx =>
      obtain ⟨hfit₀, records, hserving, hrec⟩ := h
      obtain ⟨result, ctx', fs', hrun, hnext⟩ :=
        hrec.execute hserving hen hpath helements order now args
      simp only [Server.step, hrun, Option.any_some] at huntimed hfit ⊢
      refine ⟨hfit, hnext huntimed (fun name eff record hname heff hrec => ?_) hfit⟩
      exact hwithin record (by simp [loggedRecord, hname, heff, hrec])

/-- Every server that plain steps reach can be recovered. -/
theorem Server.Run.durable (hen : env.config.persistence.aofEnabled = true)
    (hpath : env.config.persistence.manifestPath ≠ [])
    (helements : 3 ≤ env.config.protocol.maxArrayElements) {s : Server}
    (h : Server.Run env (PlainStep env) s) : Durable env s := by
  induction h with
  | init => rfl
  | step e _ hallowed ih => exact ih.step hen hpath helements hallowed

/-- **Recovery reproduces the live keyspace** after every run of plain steps: over any number of
restarts and with `SAVE` and `BGREWRITEAOF` anywhere, recovery from the files succeeds and gives
exactly the keys and values of the running process. -/
theorem recover_reproduces_live (hen : env.config.persistence.aofEnabled = true)
    (hpath : env.config.persistence.manifestPath ≠ [])
    (helements : 3 ≤ env.config.protocol.maxArrayElements) {s : Server}
    (hrun : Server.Run env (PlainStep env) s) {ctx : CommandContext} (hctx : s.process = some ctx)
    (order : IterationOrder) (T : TimePoint) :
    ∃ P, recover env order T s.fs = (.ok, replayContext env P, s.fs) ∧
      P.keyspace = ctx.storage.keyspace ∧ ctx.storage.keyspace.Untimed := by
  have hdurable := hrun.durable hen hpath helements
  simp only [Durable, hctx] at hdurable
  obtain ⟨hfit, records, hserving, hrec⟩ := hdurable
  obtain ⟨P, hrecover, hP⟩ := hrec.recover hserving.safe (hserving.fit hfit) order T
  exact ⟨P, hrecover, hP.keyspace, hrec.untimed⟩

end Runs

/-- A counter with a checkpoint, a rewrite and restarts. -/
def checkpointRun : List Event :=
  [.calmStart 0, .calmRequest 0 ["SET", "k", "1"], .calmRequest 1 ["SAVE"], .calmRequest 2 ["INCR", "k"],
    .calmStart 3, .calmRequest 4 ["BGREWRITEAOF"], .calmRequest 5 ["APPEND", "k", "0"],
    .calmRequest 6 ["SAVE"], .calmRequest 7 ["DECR", "k"]]

set_option maxRecDepth 100000 in
theorem checkpointRun_reproduced :
    ∃ ctx, (Server.after plainEnv {} checkpointRun).process = some ctx ∧
      ∃ P, recover plainEnv .listed 8 (Server.after plainEnv {} checkpointRun).fs
          = (.ok, replayContext plainEnv P, (Server.after plainEnv {} checkpointRun).fs) ∧
        P.keyspace = ctx.storage.keyspace ∧ ctx.storage.keyspace.Untimed := by
  have hrunning : (Server.after plainEnv {} checkpointRun).process.isSome = true := by decide +kernel
  have hplain : Server.AllAllowed plainEnv (PlainStep plainEnv) {} checkpointRun := by decide +kernel
  obtain ⟨ctx, hctx⟩ := Option.isSome_iff_exists.mp hrunning
  exact ⟨ctx, hctx, recover_reproduces_live rfl (by decide) (by decide) (.after .init hplain) hctx _ _⟩

end VeloxDb
