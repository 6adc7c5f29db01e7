import VeloxDb.Recovery.Loading

/-!
# Restarting on the log

A server runs from its first start, through requests and rounds of active expiration, and its log is
replayed at some time `T` from then on. `Replayed` carries along what that replay would build. As
long as every step is `Steady` with regard to `T`, the replay never meets an error reply
(`Follows.feed`) and, where clock readings are in whole milliseconds, rebuilds exactly what is
visible at `T` (`Sim.visible_eq`).
-/

namespace VeloxDb

open Resp Util FileProgram FileSystem Recovery

/-! ## How recovery reads the files -/

/-- Replay of the whole log on a fresh engine. -/
def replayLog (env : Env) (order : IterationOrder) (T : TimePoint) (fs : FileSystem FileName) :
    ReplayStats × CommandContext × FileSystem FileName :=
  replayFile env.config.persistence.aofPath (fs.read .aof) env.config.protocol
    (replayCommand env order T) 0 (replayContext env (freshStorage env), fs)

/-- The manifest on disk is `m`, and it names the files of this server. -/
structure Names (env : Env) (fs : FileSystem FileName) (m : Manifest) : Prop where
  read : (SnapshotStore.ofConfig env.config).readManifest
    (fs.read (SnapshotStore.ofConfig env.config).manifestFile) = some m
  snapshot : m.snapshotPath = env.lexicallyNormal (SnapshotStore.ofConfig env.config).path
  aof : m.aofPath = env.lexicallyNormal env.config.persistence.aofPath

section Read

variable {env : Env} {order : IterationOrder} {now : TimePoint} {fs : FileSystem FileName}
  {m : Manifest}

/-- A manifest matches by its two paths, its offset and the presence of the snapshot. -/
theorem manifestMatches_iff {store : SnapshotStore} {aofPath : Bytes} {aofSize : ℕ} {has : Bool} :
    store.manifestMatches env m aofPath aofSize has = true ↔
      (m.snapshotPath = env.lexicallyNormal store.path ∧ m.aofPath = env.lexicallyNormal aofPath) ∧
        m.aofOffset ≤ aofSize ∧ has = true := by
  simp [SnapshotStore.manifestMatches, and_assoc]

/-- Where the manifest names other files, an offset beyond the log, or a snapshot that is not there,
the whole log is replayed. -/
theorem recover_of_stale
    (h : ∀ m, Names env fs m → m.aofOffset ≤ ((fs.read .aof).map List.length).getD 0 →
      fs.has .snapshot = false) :
    recover env order now fs
      = ((replayLog env order now fs).1.status, (replayLog env order now fs).2) := by
  cases hread : (SnapshotStore.ofConfig env.config).readManifest
      (fs.read (SnapshotStore.ofConfig env.config).manifestFile) with
  | none =>
    simp only [recover, SnapshotStore.loadForRecovery, hread, Status.isOk_ok, Bool.not_true,
      Bool.false_eq_true, if_false, replayLog]
  | some m =>
    have hno : (SnapshotStore.ofConfig env.config).manifestMatches env m
        env.config.persistence.aofPath (((fs.read .aof).map List.length).getD 0) (fs.has .snapshot)
          = false := by
      rw [← Bool.not_eq_true, manifestMatches_iff]
      rintro ⟨⟨hsnapshot, haof⟩, hoff, hhas⟩
      rw [h m ⟨hread, hsnapshot, haof⟩ hoff] at hhas
      cases hhas
    simp only [recover, SnapshotStore.loadForRecovery, hread, hno, Bool.not_false, if_true,
      Status.isOk_ok, Bool.not_true, Bool.false_eq_true, if_false, replayLog]

/-- Where the manifest matches, the snapshot is loaded and the log is replayed from its offset. -/
theorem recover_of_names (h : Names env fs m)
    (hoff : m.aofOffset ≤ ((fs.read .aof).map List.length).getD 0) {text : Bytes}
    (htext : fs.read .snapshot = some text) {P : StorageEngine}
    (hload : (SnapshotStore.ofConfig env.config).load now (some text) (freshStorage env) = (.ok, P)) :
    recover env order now fs =
      let replayed := replayFile env.config.persistence.aofPath (fs.read .aof) env.config.protocol
        (replayCommand env order now) m.aofOffset (replayContext env P, fs)
      (replayed.1.status, replayed.2) := by
  have hyes : (SnapshotStore.ofConfig env.config).manifestMatches env m
      env.config.persistence.aofPath (((fs.read .aof).map List.length).getD 0) (fs.has .snapshot)
        = true := manifestMatches_iff.mpr
    ⟨⟨h.snapshot, h.aof⟩, hoff, by simp [FileSystem.has, htext]⟩
  simp only [recover, SnapshotStore.loadForRecovery, h.read, hyes, htext, hload, Status.isOk_ok,
    Bool.not_true, Bool.false_eq_true, if_false, if_true]

/-- Without files there is nothing to recover. -/
theorem recover_empty (env : Env) (order : IterationOrder) (now : TimePoint) :
    recover env order now .empty = (.ok, replayContext env (freshStorage env), .empty) :=
  recover_of_stale fun _ _ _ => rfl

end Read

/-! ## The first start -/

section Start

variable {env : Env} {order : IterationOrder} {now : TimePoint} {fs : FileSystem FileName}
  {P : StorageEngine}

/-- Recovery without an error leaves the log to be opened. -/
theorem start_eq (hen : env.config.persistence.aofEnabled = true)
    (hrec : recover env order now fs = (.ok, replayContext env P, fs)) :
    start env order now ⟨fs, []⟩ = (Aof.openAof env {} >>= fun opened =>
      if !opened.1.isOk then return .error opened.1
      else return .ok { replayContext env P with
        aof := some opened.2, hasRequestShutdown := true, replay := false }) ⟨fs, []⟩ := by
  have hfiles : files ⟨fs, []⟩ = .ok fs ⟨fs, []⟩ := rfl
  rw [start, bind_of_ok hfiles]
  simp only [hen, if_true, hrec]
  rfl

/-- A start on files that recovery reads without an error. -/
theorem start_of_recover (hen : env.config.persistence.aofEnabled = true)
    (hsafe : pathIsSafe env.config.persistence.aofPath = true)
    (hrec : recover env order now fs = (.ok, replayContext env P, fs)) (hwf : P.WF)
    (hsetup : P.setup = (freshStorage env).setup) :
    ∃ ctx fs', start env order now ⟨fs, []⟩ = .ok (.ok ctx) ⟨fs', []⟩ ∧ ctx.storage = P ∧
      Keeps [.aof] fs fs' ∧ Serving env ctx fs' ((fs.read .aof).getD []) := by
  have hspec := Aof.spec_openAof (w := ⟨fs, []⟩) {} hen
  obtain ⟨⟨status, aof⟩, ⟨fs', plan⟩, hrun, hkeeps, hcalm, -⟩ :=
    (hspec.mono (fun _ _ hq => hq) fun _ hc => absurd rfl hc.2.1).exists_ok
  obtain ⟨rfl, hopen⟩ := hcalm rfl
  obtain ⟨hok, hatt⟩ := hopen hsafe
  refine ⟨{ replayContext env P with aof := some aof, hasRequestShutdown := true, replay := false }, fs',
    ?_, rfl, hkeeps, ⟨aof, rfl, hatt⟩, rfl, rfl, hsetup, hwf, hsafe⟩
  simp only at hok
  rw [start_eq hen hrec, bind_of_ok hrun]
  simp only [hok, Bool.not_true, Bool.false_eq_true, if_false]
  rfl

/-- A start where the log cannot be opened. -/
theorem start_of_unsafe (hen : env.config.persistence.aofEnabled = true)
    (hsafe : pathIsSafe env.config.persistence.aofPath = false)
    (hrec : recover env order now fs = (.ok, replayContext env P, fs)) :
    ∃ status, start env order now ⟨fs, []⟩ = .ok (.error status) ⟨fs, []⟩ := by
  refine ⟨.invalidArgument (ascii "invalid AOF path"), ?_⟩
  rw [start_eq hen hrec]
  simp only [Aof.openAof, hen, hsafe, Bool.not_false, Bool.not_true, if_true]
  rfl

end Start

/-! ## What a replay of the log builds -/

/-- What keeps a replay within `max_memory_bytes`. The replay stores entries that the live engine
has reclaimed, so it may be refused a write that went through. -/
inductive MemoryRule
  /-- Under a limit nothing that is stored has expired when a step is made. -/
  | nothingExpired
  /-- The writes in the log fit together. -/
  | logFits

/-- The room that is left by a replay of the records. -/
def MemoryRule.Leaves (env : Env) (records : List (List Bytes)) : MemoryRule → Option ℕ → Prop
  | .nothingExpired, spare => spare = none
  | .logFits, spare => ∃ bytes, spare = some bytes ∧
      (records.map recordCharge).sum + bytes ≤ env.config.storage.maxMemoryBytes

/-- The process serves, its log holds `records`, and their replay at `T` builds an engine that
follows the live one, as far as the rule leaves room. -/
structure Replayed (env : Env) (T m : ℤ) (rule : MemoryRule) (ctx : CommandContext)
    (fs : FileSystem FileName) (records : List (List Bytes)) : Prop where
  serving : Serving env ctx fs (records.flatMap encodeCommand)
  replay : ∀ spare, rule.Leaves env records spare →
    ∃ P, applyRecords env T (freshStorage env) records = some P ∧ Sim T m spare ctx.storage P
  representable : ctx.storage.keyspace.Representable

section Steps

variable {env : Env} {T m : ℤ} {rule : MemoryRule} {spare : Option ℕ} {now : TimePoint}
  {L L' : StorageEngine} {ctx ctx' : CommandContext} {fs fs' : FileSystem FileName}
  {records : List (List Bytes)} {P : StorageEngine}

/-- Before the last record there is room for it. -/
theorem MemoryRule.Leaves.before {record : List Bytes}
    (h : rule.Leaves env (records ++ [record]) spare) :
    rule.Leaves env records (spare.map (· + recordCharge record)) := by
  cases rule with
  | nothingExpired =>
    obtain rfl : spare = none := h
    rfl
  | logFits =>
    obtain ⟨bytes, rfl, hle⟩ := h
    refine ⟨bytes + recordCharge record, rfl, ?_⟩
    simp only [List.map_append, List.map_cons, List.map_nil, List.sum_append, List.sum_cons,
      List.sum_nil] at hle
    omega

/-- An engine that stores nothing that the live one does not, and no more than the records are
charged with, has the room that is left. -/
theorem MemoryRule.Leaves.sim (h : rule.Leaves env records spare) (hsim : Sim T m none L P)
    (hsetup : L.setup = (freshStorage env).setup)
    (hused : P.maxMemoryBytes ≠ 0 → P.usedMemory ≤ (records.map recordCharge).sum) :
    Sim T m spare L P := by
  refine ⟨hsim.setup, hsim.live_wf, hsim.replay_wf, hsim.items, fun hne => ?_⟩
  cases rule with
  | nothingExpired =>
    obtain rfl : spare = none := h
    exact hsim.room hne
  | logFits =>
    obtain ⟨bytes, rfl, hle⟩ := h
    have hmax : L.maxMemoryBytes = env.config.storage.maxMemoryBytes :=
      congrArg (fun s : StorageSetup => s.config.maxMemoryBytes) hsetup
    have hbound := hused (hsim.maxMemoryBytes_eq ▸ hne)
    simp only [Room, hsim.maxMemoryBytes_eq, hmax]
    omega

/-- Two empty engines agree. -/
theorem Sim.of_empty (hwf : L.WF) (hempty : L.keyspace = fun _ => none) : Sim T m none L L := by
  refine ⟨rfl, hwf, hwf, fun k => ?_, fun _ k x hx => ⟨x, hx, rfl⟩⟩
  rw [Keyspace.visible_of_eq_none (by rw [hempty]), hempty]
  exact Agrees.none_none

/-- A new engine is well formed. -/
theorem wf_freshStorage (env : Env) : (freshStorage env).WF := StorageEngine.wf_new _

/-- A new engine is empty. -/
theorem keyspace_freshStorage (env : Env) : (freshStorage env).keyspace = fun _ => none := by
  funext k
  simp [StorageEngine.keyspace, StorageEngine.find, freshStorage]

/-- A command leaves representable deadlines. -/
theorem Keyspace.Representable.writes {keys : List Bytes} {p : Prop}
    (h : L.keyspace.Representable) (hw : Commands.Writes L L' keys p) :
    L'.keyspace.Representable := by
  intro k x hx d hd
  rcases hw.items k x hx with hx' | ⟨-, hnone | ⟨-, d', hd'⟩⟩
  · exact h k x hx' d hd
  · rw [hnone] at hd
    cases hd
  · rw [hd', Option.some.injEq] at hd
    exact hd ▸ inI64_wrap64 d'

/-- The live engine drops expired entries. -/
theorem Replayed.reclaimed (h : Replayed env T m rule ctx fs records)
    (hserving : Serving env ctx' fs' (records.flatMap encodeCommand)) (hle : now ≤ T)
    (hun : rule = .nothingExpired → Sim.Unhurried now ctx.storage)
    (hre : StorageEngine.Reclaimed now ctx.storage ctx'.storage) :
    Replayed env T m rule ctx' fs' records := by
  refine ⟨hserving, fun spare hleaves => ?_,
    h.representable.writes (.of_reclaimed hre : Commands.Writes _ _ [] True)⟩
  obtain ⟨P, happly, hsim⟩ := h.replay spare hleaves
  refine ⟨P, happly, hsim.reclaimed (Keyspace.pastBy_of_le _ hle) (fun hnone => hun ?_) hre⟩
  cases rule with
  | nothingExpired => rfl
  | logFits =>
    obtain ⟨bytes, hsome, -⟩ := hleaves
    rw [hnone] at hsome
    cases hsome

/-- A restart keeps the values. -/
theorem Item.value_of_reloaded {x y : Item} (h : y.reloaded T = some x) : y.value = x.value := by
  simp only [Item.reloaded, StorageEngine.expiredAt] at h
  split at h
  · cases h
    rfl
  · split_ifs at h
    cases h
    rfl

/-- The deadline of an item that is loaded again returns up to a fraction of a millisecond. -/
theorem Agrees.of_reloaded {y : Item} (hin : ∀ d, y.expiry = some d → InI64 d) (hT : 0 ≤ T)
    (hm : 2 * nanosPerMilli ≤ m) :
    Agrees T m (some y) ((y.reloaded T).filter fun x => !x.expired T) := by
  obtain ⟨value, expiry⟩ := y
  cases expiry with
  | none => exact Agrees.of_returns rfl (Returns.refl none)
  | some d =>
    have hret := returns_unixMs (T := T) hT (hin d rfl) (Or.inr hm)
    simp only [Item.reloaded, StorageEngine.expiredAt, Option.map_some]
    split_ifs with hd
    · rintro _ ⟨⟩
      exact ⟨_, hd, hret⟩
    · exact Agrees.of_returns rfl hret

/-- The log is rewritten: it holds the live entries. -/
theorem sim_reload (hL : L.WF) (hrep : L.keyspace.Representable) (order : IterationOrder)
    (now : TimePoint) (hT : 0 ≤ T) (hm : 2 * nanosPerMilli ≤ m)
    (hsetup : L.setup = (freshStorage env).setup) :
    ∃ P, applyRecords env T (freshStorage env)
        ((order.arrange (L.snapshot now).1).flatMap snapshotRecords) = some P ∧
      Sim T m none (L.snapshot now).2 P ∧ (P.maxMemoryBytes ≠ 0 → P.usedMemory ≤
        (((order.arrange (L.snapshot now).1).flatMap snapshotRecords).map recordCharge).sum) := by
  obtain ⟨P, hP, happly, -, hused⟩ := reload_spec hL hrep order now (wf_freshStorage env) hsetup.symm
    (keyspace_freshStorage env) T
  have hsnap := (snapshot_spec hL now).1
  have hfresh : (freshStorage env).usedMemory = 0 := rfl
  refine ⟨P, happly env, ⟨by rw [hP.setup, hsnap.setup, hsetup], hsnap.wf, hP.wf, fun k => ?_,
    fun _ k x hx => ?_⟩, fun hmax => ?_⟩
  · rw [hsnap.keyspace, hP.keyspace]
    cases hy : L.keyspace.visible now k with
    | none =>
      rw [Keyspace.visible_of_eq_none (by rw [hy, Option.bind_none])]
      exact Agrees.none_none
    | some y =>
      have hk := (Keyspace.visible_eq_some.mp hy).1
      change Agrees T m _ (((L.keyspace.visible now k).bind (Item.reloaded T)).filter _)
      rw [hy]
      exact Agrees.of_reloaded (hrep k y hk) hT hm
  · rw [hP.keyspace] at hx
    rw [hsnap.keyspace]
    obtain ⟨y, hy, hx⟩ := Option.bind_eq_some_iff.mp hx
    exact ⟨y, hy, Item.value_of_reloaded hx⟩
  · have hle := hused (by rwa [StorageEngine.maxMemoryBytes, ← hP.setup])
    rwa [hfresh, Nat.zero_add] at hle

/-- What a request must not do if the log is to be replayed at `T`. -/
structure SteadyRequest (T m : ℤ) (rule : MemoryRule) (now : TimePoint) (L : StorageEngine)
    (args : List Bytes) (reply : Option CommandResult) : Prop where
  /-- Under a memory limit the live engine has nothing to reclaim. -/
  unhurried : rule = .nothingExpired → Sim.Unhurried now L
  safe : ∀ name, CommandName.ofArgs args = some name → Safe T m now L name args
  /-- A refused `MSET` may have stored its first pairs, without a record. -/
  mset : CommandName.ofArgs args = some .mset → reply.any CommandResult.isError = false
  /-- A rewritten log has lost the fractions of milliseconds of the deadlines. -/
  rewrite : CommandName.ofArgs args = some .bgrewriteaof → 0 ≤ T ∧ 2 * nanosPerMilli ≤ m

/-- The commands that are neither `MSET` nor `BGREWRITEAOF`. -/
theorem SteadyRequest.of_safe {args : List Bytes} {name : CommandName}
    (hun : rule = .nothingExpired → Sim.Unhurried now L)
    (hname : CommandName.ofArgs args = some name) (hsafe : Safe T m now L name args)
    (hother : name ≠ .mset ∧ name ≠ .bgrewriteaof) (reply : Option CommandResult) :
    SteadyRequest T m rule now L args reply := by
  have heq : ∀ {other}, CommandName.ofArgs args = some other → name = other := fun h =>
    Option.some.inj (hname.symm.trans h)
  exact ⟨hun, fun other h => heq h ▸ hsafe, fun h => absurd (heq h) hother.1,
    fun h => absurd (heq h) hother.2⟩

/-- A command on data. -/
theorem Replayed.data (h : Replayed env T m rule ctx fs records) (hm : 0 ≤ m) (hle : now ≤ T)
    {args : List Bytes} {name : CommandName} {eff : Effect}
    (hname : CommandName.ofArgs args = some name)
    (heff : Commands.effect name env.config ctx now args = some eff)
    (hsteady : SteadyRequest T m rule now ctx.storage args (some eff.result))
    (hstorage : ctx'.storage = eff.storage)
    (hserving : Serving env ctx' fs' (eff.logged (records.flatMap encodeCommand))) :
    ∃ records', Replayed env T m rule ctx' fs' records' := by
  have hrep := h.representable.writes (Commands.effect_writes h.serving.wf heff)
  rcases Commands.effect_cases h.serving.wf heff with ⟨hrec, hre⟩ | hlogs | ⟨rfl, herr, -⟩
  · rw [Effect.logged, hrec, Option.map_none, Option.getD_none, List.append_nil] at hserving
    exact ⟨records, h.reclaimed hserving hle hsteady.unhurried (hstorage ▸ hre)⟩
  · obtain ⟨record, hrec⟩ := hlogs.recorded
    refine ⟨records ++ [record], by simpa [Effect.logged, hrec] using hserving,
      fun spare hleaves => ?_, hstorage ▸ hrep⟩
    obtain ⟨P, hreplay, hsim⟩ := h.replay _ hleaves.before
    obtain ⟨P', happly, hsim'⟩ := hsim.logs hm (Keyspace.pastBy_of_le _ hle) hname
      (hsteady.safe name hname) hlogs hrec
    refine ⟨P', ?_, hstorage ▸ hsim'⟩
    rw [applyRecords_append, hreplay, Option.bind_some]
    simpa [applyRecords] using happly
  · have hok := hsteady.mset hname
    rw [Option.any_some, herr] at hok
    cases hok

/-- **A steady request** keeps the relation between the log and the live engine. -/
theorem Replayed.execute (h : Replayed env T m rule ctx fs records)
    (hen : env.config.persistence.aofEnabled = true) (hm : 0 ≤ m) (hle : now ≤ T)
    (order : IterationOrder) (args : List Bytes) :
    ∃ result ctx' fs',
      CommandRegistry.execute env order now ctx args ⟨fs, []⟩ = .ok (result, ctx') ⟨fs', []⟩ ∧
      (SteadyRequest T m rule now ctx.storage args (some result) →
        ∃ records', Replayed env T m rule ctx' fs' records') := by
  obtain ⟨result, ctx', fs', log', hrun, hserving, hexec⟩ := h.serving.execute hen order now args
  refine ⟨result, ctx', fs', hrun, fun hsteady => ?_⟩
  cases hexec with
  | data hname heff hstorage hkeeps => exact h.data hm hle hname heff hsteady hstorage hserving
  | save hname hstorage hout =>
    refine ⟨records, h.reclaimed hserving hle hsteady.unhurried ?_⟩
    rcases hstorage with hstorage | hstorage <;> rw [hstorage]
    · exact .refl h.serving.wf
    · exact StorageEngine.scan_reclaimed h.serving.wf now
  | rewrite hname hstorage hstage hmanifest =>
    obtain ⟨hT, hmargin⟩ := hsteady.rewrite hname
    obtain ⟨P', happly, hsim, hused⟩ :=
      sim_reload h.serving.wf h.representable order now hT hmargin h.serving.setup
    have hre := StorageEngine.scan_reclaimed h.serving.wf now
    exact ⟨_, hserving, fun spare hleaves =>
      ⟨P', happly, hstorage ▸ hleaves.sim hsim (hre.setup.trans h.serving.setup) hused⟩,
      hstorage ▸ h.representable.writes (.of_reclaimed hre : Commands.Writes _ _ [] True)⟩
  | other hstorage =>
    exact ⟨records, hserving, hstorage ▸ h.replay, hstorage ▸ h.representable⟩

end Steps

/-! ## Runs -/

/-- A step of a serial run in which all calls succeed, not later than `T`: the first start, requests
and rounds of active expiration. -/
def Serial (T : ℤ) (s : Server) : Event → Prop
  | .request now _ plan _ => now ≤ T ∧ plan = []
  | .activeExpire now => now ≤ T
  | .restart now _ plan => now ≤ T ∧ plan = [] ∧ s.process.isNone = true

instance (T : ℤ) (s : Server) : ∀ e, Decidable (Serial T s e)
  | .request _ _ _ _ => inferInstanceAs (Decidable (_ ∧ _))
  | .activeExpire _ => inferInstanceAs (Decidable ((_ : ℤ) ≤ T))
  | .restart _ _ _ => inferInstanceAs (Decidable (_ ∧ _))

/-- The step is one whose log can be replayed at `T`. -/
def Steady (T m : ℤ) (rule : MemoryRule) (s : Server) : Event → Option CommandResult → Prop
  | .request now _ _ args, reply =>
    ∀ ctx, s.process = some ctx → SteadyRequest T m rule now ctx.storage args reply
  | .activeExpire now, _ =>
    rule = .nothingExpired → ∀ ctx, s.process = some ctx → Sim.Unhurried now ctx.storage
  | .restart _ _ _, _ => True

/-- There is no process and no file, or the log follows the process. -/
def Follows (env : Env) (T m : ℤ) (rule : MemoryRule) (s : Server) : Prop :=
  match s.process with
  | none => s.fs = .empty
  | some ctx => ∃ records, Replayed env T m rule ctx s.fs records

section Runs

variable {env : Env} {T m : ℤ} {rule : MemoryRule}

/-- A start brings back what the log has. -/
theorem Follows.start {s : Server} (h : Follows env T m rule s)
    (hen : env.config.persistence.aofEnabled = true) (hnone : s.process.isNone = true)
    (now : TimePoint) (order : IterationOrder) :
    Follows env T m rule (s.step env (.restart now order [])).2 := by
  obtain ⟨process, fs, clock⟩ := s
  obtain rfl : process = none := by simpa using hnone
  obtain rfl : fs = .empty := h
  cases hsafe : pathIsSafe env.config.persistence.aofPath with
  | false =>
    obtain ⟨status, hstart⟩ := start_of_unsafe hen hsafe (recover_empty env order now)
    simp only [Server.step, hstart]
    rfl
  | true =>
    obtain ⟨ctx, fs', hstart, hstorage, -, hserving⟩ :=
      start_of_recover hen hsafe (recover_empty env order now) (wf_freshStorage env) rfl
    simp only [Server.step, hstart]
    refine ⟨[], hserving, fun spare hleaves => ⟨freshStorage env, rfl, ?_⟩, ?_⟩ <;> rw [hstorage]
    · exact hleaves.sim (.of_empty (wf_freshStorage env) (keyspace_freshStorage env)) rfl
        fun _ => le_rfl
    · intro k x hx
      rw [keyspace_freshStorage] at hx
      cases hx

/-- Every event keeps it. -/
theorem Follows.step {s : Server} (h : Follows env T m rule s)
    (hen : env.config.persistence.aofEnabled = true) (hm : 0 ≤ m) {e : Event} (hserial : Serial T s e)
    (hsteady : Steady T m rule s e (s.step env e).1) : Follows env T m rule (s.step env e).2 := by
  cases e with
  | restart now order plan =>
    obtain ⟨-, rfl, hnone⟩ := hserial
    exact h.start hen hnone now order
  | activeExpire now =>
    obtain ⟨process, fs, clock⟩ := s
    cases process with
    | none => exact h
    | some ctx =>
      obtain ⟨records, hrep⟩ := h
      have hre := StorageEngine.activeExpire_reclaimed hrep.serving.wf
        env.config.expiration.samplePerShard now
      exact ⟨records, hrep.reclaimed ⟨hrep.serving.aof, hrep.serving.replay, hrep.serving.snapshot,
        hre.setup.trans hrep.serving.setup, hre.wf, hrep.serving.safe⟩ hserial
        (fun hrule => hsteady hrule ctx rfl) hre⟩
  | request now order plan args =>
    obtain ⟨hle, rfl⟩ := hserial
    obtain ⟨process, fs, clock⟩ := s
    cases process with
    | none => exact h
    | some ctx =>
      obtain ⟨records, hrep⟩ := h
      obtain ⟨result, ctx', fs', hrun, hnext⟩ := hrep.execute hen hm hle order args
      simp only [Server.step, hrun] at hsteady ⊢
      exact hnext (hsteady ctx rfl)

/-- Every server that steady steps reach is followed by its log. -/
theorem Server.Run.follows {s : Server} (hen : env.config.persistence.aofEnabled = true) (hm : 0 ≤ m)
    (h : Server.Run env (fun s e reply _ => Serial T s e ∧ Steady T m rule s e reply) s) :
    Follows env T m rule s := by
  induction h with
  | init => rfl
  | step e _ hallowed ih => exact ih.step hen hm hallowed.1 hallowed.2

/-- The log consists of `records`. On a fresh engine and with the clock at `T` the registry replies
no error to any of them, and they build `P`; so does `replay_file`, when they are within its limits.
-/
structure ReplaysTo (env : Env) (T : ℤ) (fs : FileSystem FileName) (records : List (List Bytes))
    (P : StorageEngine) : Prop where
  log : fs.read .aof = some (records.flatMap encodeCommand)
  feed : ∀ order, VeloxDb.feed (replayCommand env order T) records
      (replayContext env (freshStorage env), fs) 0 = .inl ((replayContext env P, fs), records.length)
  replay : ∀ order,
    (∀ record ∈ records, WithinLimits (parserOptionsFromConfig env.config.protocol) record) →
    (records.flatMap encodeCommand).length ≤ env.config.protocol.maxRequestBytes →
    replayLog env order T fs = ({ commands := records.length }, replayContext env P, fs)

/-- Replaying the log is applying its records. -/
theorem replaysTo_of_applyRecords {fs : FileSystem FileName} {records : List (List Bytes)}
    {P : StorageEngine} (hsafe : pathIsSafe env.config.persistence.aofPath = true)
    (hlog : fs.read .aof = some (records.flatMap encodeCommand))
    (happly : applyRecords env T (freshStorage env) records = some P) : ReplaysTo env T fs records P := by
  have hfeed : ∀ order, feed (replayCommand env order T) records
      (replayContext env (freshStorage env), fs) 0
        = .inl ((replayContext env P, fs), records.length) := by
    intro order
    rw [feed_of_applyRecords happly, Nat.zero_add]
  refine ⟨hlog, hfeed, fun order hlim hlen => ?_⟩
  rw [replayLog, hlog]
  exact replayFile_of_feed hsafe (Nat.zero_le _) rfl hlim hlen (hfeed order)

/-- The records of the log together fit into the memory. -/
def LogFits (env : Env) (fs : FileSystem FileName) : Prop :=
  ∃ records : List (List Bytes), fs.read .aof = some (records.flatMap encodeCommand) ∧
    (records.map recordCharge).sum ≤ env.config.storage.maxMemoryBytes

/-- The log of a running server replays to an engine that agrees with it. -/
theorem Replayed.replaysTo {ctx : CommandContext} {fs : FileSystem FileName}
    {records : List (List Bytes)} (h : Replayed env T m rule ctx fs records)
    (hfits : rule = .logFits → LogFits env fs) :
    ∃ P spare, ReplaysTo env T fs records P ∧ Sim T m spare ctx.storage P := by
  obtain ⟨aof, -, hatt⟩ := h.serving.aof
  have hleaves : ∃ spare, rule.Leaves env records spare := by
    cases rule with
    | nothingExpired => exact ⟨none, rfl⟩
    | logFits =>
      obtain ⟨records', hlog, hle⟩ := hfits rfl
      rw [hatt.contents, Option.some.injEq] at hlog
      obtain rfl := flatMap_encodeCommand_inj hlog
      exact ⟨some 0, 0, rfl, hle⟩
  obtain ⟨spare, hleaves⟩ := hleaves
  obtain ⟨P, happly, hsim⟩ := h.replay spare hleaves
  exact ⟨P, spare, replaysTo_of_applyRecords h.serving.safe hatt.contents happly, hsim⟩

end Runs

/-! ## Concrete runs -/

/-- No memory limit. -/
def plainEnv : Env := .plain { storage := { maxMemoryBytes := 0 } }

/-- Memory for a few entries. -/
def tightEnv : Env := .plain { storage := { maxMemoryBytes := 320 } }

/-- One key expires; then there is a counter whose deadline has not come at the time of the restart.
-/
def counterRun : List Event :=
  [.calmStart 0, .calmRequest 0 ["SET", "j", "v", "PX", "5"],
    .calmRequest 10000000 ["SET", "k", "1", "PX", "100"], .calmRequest 11000000 ["INCR", "k"]]

set_option maxRecDepth 100000 in
/-- The server runs in the end. -/
theorem counterRun_running : (Server.after tightEnv {} counterRun).process.isSome = true := by
  decide +kernel

set_option maxRecDepth 100000 in
/-- The three writes in its log fit into the memory together. -/
theorem counterRun_fits : LogFits tightEnv (Server.after tightEnv {} counterRun).fs :=
  ⟨[["SET", "j", "v", "PXAT", "5"].map ascii, ["SET", "k", "1", "PXAT", "110"].map ascii,
    ["INCR", "k"].map ascii], by decide +kernel, by decide +kernel⟩

/-- A deadline that is set at a whole millisecond. -/
theorem safe_px {m now : ℤ} (ttl : ℤ) {L : StorageEngine} {key value arg : String}
    (hm : m = 0 ∨ m = 2 * nanosPerMilli) (hwhole : nanosPerMilli ∣ now)
    (hclock : InClock now ∧ now ≤ 50000000) (hin : now + ttl * nanosPerMilli ≤ int64Max)
    (hparse : Commands.parseSetOptions [ascii "PX", ascii arg] {} = .ok { ttl := some ttl }) :
    Safe 50000000 m now L .set (["SET", key, value, "PX", arg].map ascii) := by
  intro o ho
  obtain rfl := Except.ok.inj (hparse.symm.trans ho)
  refine .inr ⟨⟨hclock.1, by decide, hclock.2, ?_⟩, ?_, ?_⟩
  · exact hm.imp (fun h => ⟨h, hwhole, by decide⟩) fun h => h.ge
  · rintro _ ⟨⟩
    exact hin
  · rintro _ ⟨⟩

set_option maxRecDepth 100000 in
/-- Its events are serial and steady. -/
theorem counterRun_steady {m : ℤ} (hm : m = 0 ∨ m = 2 * nanosPerMilli) :
    Server.AllAllowed tightEnv
      (fun s e reply _ => Serial 50000000 s e ∧ Steady 50000000 m .logFits s e reply)
      {} counterRun := by
  have hthree : ((Server.after tightEnv {} (counterRun.take 3)).process.map
      fun ctx => ctx.storage.keyspace.visible 11000000 (ascii "k"))
        = some (some ⟨ascii "1", some 110000000⟩) := by decide +kernel
  have hun : ∀ now L, MemoryRule.logFits = .nothingExpired → Sim.Unhurried now L :=
    fun _ _ hrule => by cases hrule
  refine ⟨⟨⟨by decide, rfl, rfl⟩, trivial⟩, ⟨⟨by decide, rfl⟩, fun ctx hctx => ?_⟩,
    ⟨⟨by decide, rfl⟩, fun ctx hctx => ?_⟩, ⟨⟨by decide, rfl⟩, fun ctx hctx => ?_⟩, trivial⟩
  · exact .of_safe (hun _ _) (by decide)
      (safe_px 5 hm (by decide) (by decide) (by decide) (by decide +kernel)) (by decide) _
  · exact .of_safe (hun _ _) (by decide)
      (safe_px 100 hm (by decide) (by decide) (by decide) (by decide +kernel)) (by decide) _
  · have hvisible := Option.some.inj ((congrArg (Option.map _) hctx).symm.trans hthree)
    have hsafe : Safe 50000000 m 11000000 ctx.storage .incr (["INCR", "k"].map ascii) := by
      intro y hy
      obtain rfl := Option.some.inj (hvisible.symm.trans hy)
      rintro _ ⟨⟩
      rcases hm with rfl | rfl <;> decide
    exact .of_safe (hun _ _) (by decide) hsafe (by decide) _

/-! ## The log after a run -/

/-- **Expiring keys come back.** After any run of steady steps, at whole milliseconds where
deadlines are set, a replay of the log at `T` meets no error and shows the keys, values and
deadlines that the live engine shows at `T`. Under a memory limit nothing expires before `T`, or the
writes in the log fit together. -/
theorem replay_shows_live {env : Env} {T : ℤ} {rule : MemoryRule} {s : Server}
    {ctx : CommandContext}
    (hen : env.config.persistence.aofEnabled = true)
    (hrun : Server.Run env (fun s e reply _ => Serial T s e ∧ Steady T 0 rule s e reply) s)
    (hfits : rule = .logFits → LogFits env s.fs) (hctx : s.process = some ctx) :
    ∃ records P, ReplaysTo env T s.fs records P ∧
      P.keyspace.visible T = ctx.storage.keyspace.visible T := by
  have hfollows := hrun.follows hen le_rfl
  simp only [Follows, hctx] at hfollows
  obtain ⟨records, hrep⟩ := hfollows
  obtain ⟨P, spare, hreplays, hsim⟩ := hrep.replaysTo hfits
  exact ⟨records, P, hreplays, hsim.visible_eq⟩

/-- A run with a key that expires, under a limit. -/
theorem counterRun_shows_live :
    ∃ ctx, (Server.after tightEnv {} counterRun).process = some ctx ∧
      ∃ records P, ReplaysTo tightEnv 50000000 (Server.after tightEnv {} counterRun).fs records P ∧
        P.keyspace.visible 50000000 = ctx.storage.keyspace.visible 50000000 := by
  obtain ⟨ctx, hctx⟩ := Option.isSome_iff_exists.mp counterRun_running
  exact ⟨ctx, hctx, replay_shows_live rfl (.after .init (counterRun_steady (.inl rfl)))
    (fun _ => counterRun_fits) hctx⟩

/-- The writes, with and without expiry. -/
def CommandName.writes : CommandName → Bool
  | .set | .incr | .decr | .append | .expire | .pexpire | .pexpireat | .persist | .del | .mset
  | .flushdb => true
  | _ => false

/-- A write at a whole millisecond that replies without an error. -/
def WholeMillisWrite : Event → Option CommandResult → Prop
  | .request now _ _ args, reply => nanosPerMilli ∣ now ∧
      (CommandName.ofArgs args).any CommandName.writes = true ∧
      reply.any CommandResult.isError = false
  | .activeExpire now, _ | .restart now _ _, _ => nanosPerMilli ∣ now

instance : ∀ e reply, Decidable (WholeMillisWrite e reply)
  | .request _ _ _ _, _ => inferInstanceAs (Decidable (_ ∧ _))
  | .activeExpire now, _ | .restart now _ _, _ => inferInstanceAs (Decidable (nanosPerMilli ∣ now))

/-- The deadline of the key is removed, but its record comes too late when the deadline has passed.
-/
def persistRun : List Event :=
  [.calmStart 0, .calmRequest 0 ["SET", "k", "v", "PX", "100"], .calmRequest 0 ["PERSIST", "k"]]

set_option maxRecDepth 100000 in
/-- A key that was made persistent is lost by a restart after its former deadline. -/
theorem persisted_key_lost :
    Server.Run plainEnv (fun s e reply _ => Serial 200000000 s e ∧ WholeMillisWrite e reply)
        (Server.after plainEnv {} persistRun) ∧
      ((Server.after plainEnv {} persistRun).process.map fun ctx =>
        ctx.storage.keyspace.visible 200000000 (ascii "k")) = some (some ⟨ascii "v", none⟩) ∧
      (replayLog plainEnv .listed 200000000 (Server.after plainEnv {} persistRun).fs).1.status = .ok ∧
      (replayLog plainEnv .listed 200000000
        (Server.after plainEnv {} persistRun).fs).2.1.storage.keyspace.visible 200000000 (ascii "k")
          = none :=
  ⟨.after .init (by decide +kernel), by decide +kernel, by decide +kernel, by decide +kernel⟩

/-- **The log is accepted.** After any run of steady steps, at any readings of the clock, a replay
of the log at `T` meets no error. Under a memory limit nothing expires before `T`, or the writes in
the log fit together. -/
theorem replay_never_refused {env : Env} {T : ℤ} {rule : MemoryRule} {s : Server}
    {ctx : CommandContext}
    (hen : env.config.persistence.aofEnabled = true)
    (hrun : Server.Run env
      (fun s e reply _ => Serial T s e ∧ Steady T (2 * nanosPerMilli) rule s e reply) s)
    (hfits : rule = .logFits → LogFits env s.fs) (hctx : s.process = some ctx) :
    ∃ records P, ReplaysTo env T s.fs records P := by
  have hfollows := hrun.follows hen (by decide)
  simp only [Follows, hctx] at hfollows
  obtain ⟨records, hrep⟩ := hfollows
  obtain ⟨P, -, hreplays, -⟩ := hrep.replaysTo hfits
  exact ⟨records, P, hreplays⟩

/-- A run with a key that expires, under a limit. -/
theorem counterRun_never_refused :
    ∃ ctx, (Server.after tightEnv {} counterRun).process = some ctx ∧
      ∃ records P, ReplaysTo tightEnv 50000000 (Server.after tightEnv {} counterRun).fs records P := by
  obtain ⟨ctx, hctx⟩ := Option.isSome_iff_exists.mp counterRun_running
  exact ⟨ctx, hctx, replay_never_refused rfl (.after .init (counterRun_steady (.inr rfl)))
    (fun _ => counterRun_fits) hctx⟩

/-- Here the replay appends to nothing, since the key has expired, and then finds no number. -/
def emptiedCounterRun : List Event :=
  [.calmStart 0, .calmRequest 0 ["SET", "k", "1", "PX", "100"], .calmRequest 0 ["APPEND", "k", ""],
    .calmRequest 0 ["INCR", "k"]]

set_option maxRecDepth 100000 in
/-- A server that cannot start on its own log. -/
theorem emptied_counter_refused :
    Server.Run plainEnv (fun s e _ _ => Serial 200000000 s e)
        (Server.after plainEnv {} emptiedCounterRun) ∧
      (replayLog plainEnv .listed 200000000 (Server.after plainEnv {} emptiedCounterRun).fs).1
        = { commands := 2, status := .protocolError (ascii "AOF command failed during replay") } :=
  ⟨.after .init (by decide +kernel), by decide +kernel⟩

end VeloxDb
