import VeloxDb.Recovery.Reachable
import VeloxDb.Recovery.Serving

/-!
# What the records of a command mean

`appended` are the records that a command hands to `Aof::append`: at most one, and not always the
command itself. Replayed on a copy of the engine that the command started from, at the same reading
of the clock, they show the same keys, values and deadlines as the command did. The margin of the
simulation is zero here: everything is in whole milliseconds, and a copy of an engine follows it
(`Sim.self`).
-/

namespace VeloxDb

open Resp Decimal Util FileProgram FileSystem Recovery

/-! ## A copy follows the engine -/

/-- An engine agrees with itself. -/
theorem Sim.self {L : StorageEngine} (h : L.WF) (now : ℤ) : Sim now 0 none L L := by
  refine ⟨rfl, h, h, fun k => ?_, fun _ k x hx => ⟨x, hx, rfl⟩⟩
  cases hv : L.keyspace.visible now k with
  | some x => exact ⟨x, (Keyspace.visible_eq_some.mp hv).1, rfl, Returns.refl _⟩
  | none =>
    intro y hy
    obtain ⟨d, hd, hexp⟩ := Item.expired_eq_true.mp (Keyspace.visible_eq_none.mp hv y hy)
    exact ⟨d, hd, hexp ▸ Returns.refl _⟩

/-- What is visible now endures until now. -/
theorem keyEndures_self (L : StorageEngine) (now : ℤ) (key : Bytes) : KeyEndures now 0 now L key := by
  intro y hy d hd
  have hlive := (Keyspace.visible_eq_some.mp hy).2
  by_contra hle
  rw [Item.expired_eq_true.mpr ⟨d, by omega, hd⟩] at hlive
  cases hlive

/-- The deadline that a command computes from its arguments is representable. -/
def DeadlineInRange (now : ℤ) : CommandName → List Bytes → Prop
  | .set, _ :: _ :: _ :: rest => ∀ o, Commands.parseSetOptions rest {} = .ok o → o.InRange now
  | .expire, [_, _, value] =>
    ∀ ttl, Commands.parseTtlMs value 1000 = some ttl → InI64 (now + ttl * nanosPerMilli)
  | .pexpire, [_, _, value] =>
    ∀ ttl, Commands.parseTtlMs value 1 = some ttl → InI64 (now + ttl * nanosPerMilli)
  | _, _ => True

/-- At one and the same reading of the clock, a command is safe as soon as its deadline is in range.
-/
theorem safe_self {now : ℤ} (L : StorageEngine) {name : CommandName} {args : List Bytes}
    (hclock : InClock now) (hwhole : nanosPerMilli ∣ now) (hrange : DeadlineInRange now name args) :
    Safe now 0 now L name args := by
  have htime : Timely now 0 now := ⟨hclock, hclock, le_rfl, .inl ⟨rfl, hwhole, hwhole⟩⟩
  have hkey := keyEndures_self L now
  unfold Safe
  split
  · exact fun o ho => .inr ⟨htime, hrange o ho⟩
  · exact hkey _
  · exact hkey _
  · exact hkey _
  · exact hkey _
  · exact fun ttl httl => ⟨htime, hrange ttl httl, .inl (hkey _)⟩
  · exact fun ttl httl => ⟨htime, hrange ttl httl, .inl (hkey _)⟩
  · exact fun ms _ => ⟨le_rfl, .inl (hkey _)⟩
  · trivial

/-! ## Requests to a process with its log open -/

/-- The context in which requests are served: the log is open and holds `log`. -/
structure LogOpen (env : Env) (ctx : CommandContext) (fs : FileSystem FileName) (log : Bytes) :
    Prop where
  aof : ∃ aof, ctx.aof = some aof ∧ aof.Attached fs log
  enabled : env.config.persistence.aofEnabled = true
  safe : pathIsSafe env.config.persistence.aofPath = true
  replay : ctx.replay = false
  snapshot : ctx.snapshot = some (.ofConfig env.config)

/-- The records that a command hands to `Aof::append`. -/
def appended (env : Env) (now : TimePoint) (ctx : CommandContext) (args : List Bytes) :
    List (List Bytes) :=
  ((CommandName.ofArgs args).bind fun name =>
    (Commands.effect name env.config ctx now args).bind Effect.record).toList

namespace LogOpen

variable {env : Env} {ctx : CommandContext} {w : World FileName} {log : Bytes} {now : TimePoint}
  {args : List Bytes}

/-- `persist`, for every plan: unless the reply is an error, it is that of the effect and the record
is in the log. -/
theorem spec_persist (h : LogOpen env ctx w.fs log) (eff : Effect) :
    Spec (CommandRegistry.persist env.config eff ctx) w
      (fun r w' => r.2.storage = eff.storage ∧ (r.1.isError = false →
        eff.result.isError = false ∧
          w'.fs.read .aof = some (log ++ eff.record.toList.flatMap encodeCommand)))
      (fun _ => True) := by
  obtain ⟨aof, haof, hatt⟩ := h.aof
  cases hrec : eff.record with
  | none =>
    simp only [CommandRegistry.persist, hrec]
    exact spec_pure.mpr ⟨rfl, fun hok => ⟨hok, by simp [hatt.contents]⟩⟩
  | some record =>
    simp only [CommandRegistry.persist, hrec, haof, h.replay, hatt.enabled h.enabled, Bool.not_true,
      Bool.or_false, Bool.false_eq_true, if_false]
    rw [spec_bind]
    refine (Aof.spec_append hatt h.enabled record).mono (fun r w' hr => ?_) fun _ _ => trivial
    obtain ⟨-, -, hatt'⟩ := hr
    cases hok : r.1.isOk with
    | false =>
      refine spec_pure.mpr ⟨rfl, fun herr => ?_⟩
      simp at herr
    | true =>
      simp only [Bool.not_true, Bool.false_eq_true, if_false]
      refine spec_pure.mpr ⟨rfl, fun herr => ⟨herr, ?_⟩⟩
      simpa using (hatt' hok).contents

/-- What `SAVE` and a rewrite may do to the storage. -/
theorem reclaimed_of_snapshot {e e' : StorageEngine} (hwf : e.WF)
    (h : e' = e ∨ e' = (e.snapshot now).2) : StorageEngine.Reclaimed now e e' := by
  rcases h with rfl | rfl
  · exact .refl hwf
  · exact StorageEngine.scan_reclaimed hwf now

/-- `SHUTDOWN` touches neither the storage nor the files. -/
theorem spec_shutdown (env : Env) (ctx : CommandContext) (args : List Bytes) (w : World FileName) :
    Spec (Commands.shutdown env ctx args) w
      (fun r w' => r.2.storage = ctx.storage ∧ w'.fs = w.fs) (fun _ => True) := by
  unfold Commands.shutdown
  split_ifs
  · exact spec_pure.mpr ⟨rfl, rfl⟩
  · exact spec_pure.mpr ⟨rfl, rfl⟩
  · cases ctx.aof with
    | none => exact ⟨rfl, rfl⟩
    | some aof =>
      rw [spec_bind, spec_discard]
      exact (sync_idle env.config.persistence aof w).mono (fun _ _ hr => ⟨rfl, hr.1⟩) fun _ _ => trivial

/-- A `SAVE` leaves the log and the keyspace. -/
theorem spec_save (h : LogOpen env ctx w.fs log) (hwf : ctx.storage.WF) (order : IterationOrder)
    (now : TimePoint) (args : List Bytes) :
    Spec (Commands.save env order now ctx args) w
      (fun r w' => StorageEngine.Reclaimed now ctx.storage r.2.storage ∧ w'.fs.read .aof = some log)
      (fun _ => True) := by
  obtain ⟨aof, haof, hatt⟩ := h.aof
  have hsep := SnapshotStore.separate_ofConfig env.config
  have htmp := hsep.tmp_ne
  have hne := hsep.ne
  simp only [List.mem_cons, not_or] at htmp hne
  unfold Commands.save
  split_ifs with hlen
  · exact spec_pure.mpr ⟨.refl hwf, hatt.contents⟩
  · simp only [h.snapshot, haof]
    rw [spec_bind]
    refine (SnapshotStore.spec_save hsep order now ctx.storage (hatt.enabled h.enabled)).mono
      (fun r w' hr => ?_) fun _ _ => trivial
    obtain ⟨status, storage⟩ := r
    -- the log is none of the files that `SAVE` writes, and a snapshot only drops expired entries
    have hdone : StorageEngine.Reclaimed now ctx.storage storage ∧ w'.fs.read .aof = some log := by
      rcases hr.2 with ⟨-, rfl, hcommit⟩ | ⟨-, hstorage, huncommit⟩
      · refine ⟨reclaimed_of_snapshot hwf (.inr rfl), ?_⟩
        rw [hcommit.keeps.read (by simp [Ne.symm htmp.1, Ne.symm hne.1]), hatt.contents]
      · refine ⟨reclaimed_of_snapshot hwf hstorage, ?_⟩
        rw [huncommit.keeps.read (by simp [Ne.symm htmp.1]), hatt.contents]
    cases status.isOk <;> exact hdone

/-- A rewrite leaves the keyspace. -/
theorem spec_bgrewriteaof (h : LogOpen env ctx w.fs log) (hwf : ctx.storage.WF)
    (order : IterationOrder) (now : TimePoint) (args : List Bytes) :
    Spec (Commands.bgrewriteaof env order now ctx args) w
      (fun r _ => StorageEngine.Reclaimed now ctx.storage r.2.storage) (fun _ => True) := by
  obtain ⟨aof, haof, hatt⟩ := h.aof
  unfold Commands.bgrewriteaof
  split_ifs with hlen
  · exact spec_pure.mpr (.refl hwf)
  · simp only [haof, Option.filter_some, hatt.enabled h.enabled, if_true]
    rw [spec_bind]
    refine (Aof.spec_rewrite order now aof ctx.storage h.enabled h.safe).mono (fun r w' hr => ?_)
      fun _ _ => trivial
    obtain ⟨status, aof', storage⟩ := r
    have hdone : StorageEngine.Reclaimed now ctx.storage storage := reclaimed_of_snapshot hwf hr.2.1
    cases status.isOk <;> exact hdone

/-- The commands that are not an effect on the storage drop at most expired entries and append
nothing. -/
theorem spec_special (h : LogOpen env ctx w.fs log) (hwf : ctx.storage.WF) (order : IterationOrder)
    {name : CommandName} (heff : Commands.effect name env.config ctx now args = none) :
    Spec (Commands.special name env order now ctx args) w
      (fun r w' => StorageEngine.Reclaimed now ctx.storage r.2.storage ∧
        (name ≠ .bgrewriteaof → w'.fs.read .aof = some log)) (fun _ => True) := by
  obtain ⟨aof, haof, hatt⟩ := h.aof
  cases name <;> simp only [Commands.effect, reduceCtorEq] at heff
  case config =>
    obtain ⟨level, metrics, hctx⟩ := configCmd_context env.config ctx args
    refine spec_pure.mpr ⟨?_, fun _ => hatt.contents⟩
    rw [hctx]
    exact .refl hwf
  case save =>
    exact (h.spec_save hwf order now args).mono (fun _ _ hr => ⟨hr.1, fun _ => hr.2⟩) fun _ hc => hc
  case bgrewriteaof =>
    exact (h.spec_bgrewriteaof hwf order now args).mono (fun _ _ hr => ⟨hr, fun hne => absurd rfl hne⟩)
      fun _ hc => hc
  case shutdown =>
    refine (spec_shutdown env ctx args w).mono (fun r w' hr => ⟨?_, fun _ => ?_⟩) fun _ hc => hc
    · rw [hr.1]
      exact .refl hwf
    · rw [hr.2, hatt.contents]

/-- **A request, for every plan.** Unless the reply is an error, the log has grown by the records of
the command (a rewrite puts a new one in its place), and they replay to what the command left. -/
theorem spec_execute (h : LogOpen env ctx w.fs log) (hwf : ctx.storage.WF) (order : IterationOrder)
    (hclock : InClock now) (hwhole : nanosPerMilli ∣ now)
    (hrange : ∀ name, CommandName.ofArgs args = some name → DeadlineInRange now name args) :
    Spec (CommandRegistry.execute env order now ctx args) w
      (fun r w' => r.1.isError = false →
        (CommandName.ofArgs args ≠ some .bgrewriteaof →
          w'.fs.read .aof = some (log ++ (appended env now ctx args).flatMap encodeCommand)) ∧
        ∃ P, applyRecords env now ctx.storage (appended env now ctx args) = some P ∧
          P.keyspace.visible now = r.2.storage.keyspace.visible now) (fun _ => True) := by
  cases args with
  | nil =>
    refine spec_pure.mpr fun herr => ?_
    cases herr
  | cons head tail =>
    cases hname : CommandName.find head with
    | none =>
      simp only [CommandRegistry.execute, hname]
      refine spec_pure.mpr fun herr => ?_
      cases herr
    | some name =>
      have hargs : CommandName.ofArgs (head :: tail) = some name := hname
      cases heff : Commands.effect name env.config ctx now (head :: tail) with
      | none =>
        have hnone : appended env now ctx (head :: tail) = [] := by simp [appended, hargs, heff]
        simp only [CommandRegistry.execute, hname, heff, hnone]
        refine (h.spec_special hwf order heff).mono (fun r w' hr _ => ?_) fun _ _ => trivial
        obtain ⟨hre, hlog⟩ := hr
        refine ⟨fun hne => ?_, ctx.storage, rfl, (hre.reclaims.visible_eq le_rfl).symm⟩
        rw [hlog fun hn => hne (hn ▸ hargs)]
        simp
      | some eff =>
        have happ : appended env now ctx (head :: tail) = eff.record.toList := by
          simp [appended, hargs, heff]
        simp only [CommandRegistry.execute, hname, heff, happ]
        refine (h.spec_persist eff).mono (fun r w' hr herr => ?_) fun _ hc => hc
        obtain ⟨hstorage, hok⟩ := hr
        obtain ⟨hresult, hlog⟩ := hok herr
        refine ⟨fun _ => hlog, ?_⟩
        rw [hstorage]
        rcases Commands.effect_cases hwf heff with ⟨hrec, hre⟩ | hlogs | ⟨-, hmset, -⟩
        · rw [hrec]
          exact ⟨ctx.storage, rfl, (hre.reclaims.visible_eq le_rfl).symm⟩
        · obtain ⟨record, P, hrec, happly, hsim⟩ : ∃ record P, eff.record = some record ∧
              applyRecord env now ctx.storage record = some P ∧ Sim now 0 none eff.storage P :=
            (Sim.self hwf now).logs_within le_rfl (Keyspace.pastBy_of_le _ le_rfl) hargs
              (safe_self ctx.storage hclock hwhole (hrange name hargs)) hlogs
          refine ⟨P, ?_, hsim.visible_eq⟩
          rw [hrec]
          simp [applyRecords, happly]
        · rw [hmset] at hresult
          cases hresult

end LogOpen

/-- **The records of a command mean what it did.** A command that replies without an error, on any
engine and with any answers of the kernel, leaves the log with its records appended (a rewrite
apart, which appends none); the replay callback of `main` accepts them on a copy of the engine at
the same reading of the clock, and the copy then shows the same keys, values and deadlines. -/
theorem records_mean_command {env : Env} {ctx ctx' : CommandContext} {fs : FileSystem FileName}
    {log : Bytes} {order : IterationOrder} {now : TimePoint} {plan : List CallOutcome}
    {args : List Bytes} {result : CommandResult} {w : World FileName}
    (hreach : ctx.storage.Reachable (freshStorage env).setup) (hopen : LogOpen env ctx fs log)
    (hclock : InClock now) (hwhole : nanosPerMilli ∣ now)
    (hrange : ∀ name, CommandName.ofArgs args = some name → DeadlineInRange now name args)
    (hrun : CommandRegistry.execute env order now ctx args ⟨fs, plan⟩ = .ok (result, ctx') w)
    (hreply : result.isError = false) :
    (CommandName.ofArgs args ≠ some .bgrewriteaof →
        w.fs.read .aof = some (log ++ (appended env now ctx args).flatMap encodeCommand)) ∧
      ∃ P, P.keyspace.visible now = ctx'.storage.keyspace.visible now ∧
        ∀ order' fs', feed (replayCommand env order' now) (appended env now ctx args)
            (replayContext env ctx.storage, fs') 0
          = .inl ((replayContext env P, fs'), (appended env now ctx args).length) := by
  have hspec := LogOpen.spec_execute (w := ⟨fs, plan⟩) hopen hreach.wf order hclock hwhole hrange
  obtain ⟨hlog, P, happly, hvisible⟩ := hspec.of_ok hrun hreply
  refine ⟨hlog, P, hvisible, fun order' fs' => ?_⟩
  rw [feed_of_applyRecords happly, Nat.zero_add]

/-- A process that has just opened an empty log. -/
def openedContext (env : Env) : CommandContext :=
  { storage := freshStorage env, aof := some { fd := some 0 }, snapshot := some (.ofConfig env.config) }

/-- The files of a server that has just started: an empty log. -/
def openedFiles : FileSystem FileName := (FileSystem.empty.create FileName.aof).1

/-- Its log is open. -/
theorem logOpen_opened {env : Env} (hen : env.config.persistence.aofEnabled = true)
    (hsafe : pathIsSafe env.config.persistence.aofPath = true) :
    LogOpen env (openedContext env) openedFiles [] :=
  ⟨⟨_, rfl, ⟨0, rfl, rfl⟩, rfl, rfl⟩, hen, hsafe, rfl, rfl⟩

set_option maxRecDepth 100000 in
/-- `SET k v PX 5` at the epoch. -/
theorem records_mean_set :
    let env : Env := .plain { storage := { maxMemoryBytes := 0 } }
    let args := ["SET", "k", "v", "PX", "5"].map ascii
    ∃ ctx' w, CommandRegistry.execute env .listed 0 (openedContext env) args ⟨openedFiles, []⟩
        = .ok (Commands.ok, ctx') w ∧
      ∃ P, P.keyspace.visible 0 = ctx'.storage.keyspace.visible 0 ∧
        ∀ order' fs', feed (replayCommand env order' 0) (appended env 0 (openedContext env) args)
            (replayContext env (freshStorage env), fs') 0
          = .inl ((replayContext env P, fs'), (appended env 0 (openedContext env) args).length) := by
  intro env args
  have hname : ∀ name, CommandName.ofArgs args = some name → DeadlineInRange 0 name args := by
    intro name hname
    cases hname.symm.trans (show CommandName.ofArgs args = some .set by decide)
    intro o ho
    have hparse : Commands.parseSetOptions (args.drop 3) {} = .ok { ttl := some 5 } := by
      decide +kernel
    cases hparse.symm.trans ho
    exact ⟨fun t ht => by cases ht; decide, fun p hp => nomatch hp⟩
  obtain ⟨ctx', w, hrun⟩ : ∃ ctx' w, CommandRegistry.execute env .listed 0 (openedContext env) args
      ⟨openedFiles, []⟩ = .ok (Commands.ok, ctx') w := ⟨_, _, rfl⟩
  exact ⟨ctx', w, hrun, (records_mean_command .new (logOpen_opened rfl (by decide)) (by decide)
    (by decide) hname hrun rfl).2⟩

end VeloxDb
