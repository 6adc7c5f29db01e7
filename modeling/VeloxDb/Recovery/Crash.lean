import VeloxDb.Recovery.RoundTrip

/-!
# Processes that die on the way

`SAVE` and `BGREWRITEAOF` put more than one file in place, one after another, and the process can
die, or a call can fail, between any two of these steps. What matters is the manifest of an earlier
`SAVE`: with the new snapshot next to it, recovery loads the new snapshot and then replays records
that are in it already; with the rewritten log next to it, recovery starts in the middle of a log
that its offset does not belong to. So there is one window in each of the commands. In front of it
the files that recovery reads are as they were, and behind it they belong together.

Recovery reads the manifest, the snapshot and the log. The other files come into it where a record
is a `SAVE`, and a replayed `SAVE` answers the same whatever the files are
(`replayCommand_sameContext`).
-/

namespace VeloxDb

open Resp Util FileProgram FileSystem Recovery

/-! ## A replay does not look at the files -/

section Replay

variable {env : Env} {store : SnapshotStore} {order : IterationOrder} {now : TimePoint}

/-- Without failures every record is written. -/
theorem settles_streamRecords (fd : ℕ) (records : List (List Bytes)) :
    Settles (· = true) (streamRecords fd records) := by
  induction records with
  | nil => exact settles_pure rfl
  | cons record records ih =>
    refine settles_streamWrite.bind ?_
    rintro _ rfl
    exact ih

namespace SnapshotStore

/-- Without failures a file takes its place. -/
theorem settles_install (tmp name : FileName) (message : Bytes) :
    Settles (· = .ok) (install tmp name message) := by
  refine settles_call.bind ?_
  rintro _ ⟨⟨⟩, rfl⟩
  exact settles_pure rfl

variable (env store order now) in
/-- Without failures a snapshot is written, or refused. -/
theorem settles_saveSnapshotFile (storage : StorageEngine) :
    ∃ r, Settles (· = r) (saveSnapshotFile env store order now storage) := by
  simp only [saveSnapshotFile]
  cases pathIsSafe store.path with
  | false => exact ⟨_, settles_pure rfl⟩
  | true =>
    refine ⟨(.ok, (storage.snapshot now).2), (ensureParentDir_idle _ _).settles.bind ?_⟩
    intro status hstatus
    simp only [hstatus, Bool.not_true, Bool.false_eq_true, if_false]
    refine settles_call.bind ?_
    rintro _ ⟨fd, rfl⟩
    refine (settles_streamRecords fd _).bind ?_
    rintro _ rfl
    refine touch_idle.settles.bind ?_
    rintro _ rfl
    refine (settles_install _ _ _).bind ?_
    rintro _ rfl
    exact settles_pure rfl

/-- Without failures a file is removed, if its path is safe. -/
theorem settles_removeIfSafe (path : Bytes) (name : FileName) :
    Settles (fun _ => True) (removeIfSafe path name) := by
  unfold removeIfSafe
  split_ifs
  · exact settles_call.discard
  · exact settles_pure trivial

variable (env store order now) in
/-- `SAVE` without a log. -/
theorem settles_save (storage : StorageEngine) :
    ∃ r, Settles (· = r) (save env store order now storage none) := by
  obtain ⟨r, hr⟩ := settles_saveSnapshotFile env store order now storage
  refine ⟨r, hr.bind ?_⟩
  rintro _ rfl
  dsimp only
  split_ifs
  · exact (settles_removeIfSafe _ _).bind fun _ _ => settles_pure rfl
  · exact settles_pure rfl

end SnapshotStore

variable {ctx : CommandContext}

/-- Whatever the files are, `p` ends with one and the same answer and context, and the context still
has no log. -/
def Determined (ctx : CommandContext) (p : FileProgram FileName (CommandResult × CommandContext)) :
    Prop :=
  ∃ r : CommandResult × CommandContext,
    r.2.aof = none ∧ r.2.snapshot = ctx.snapshot ∧ Settles (· = r) p

/-- A command that ends at once is determined. -/
theorem determined_pure {r : CommandResult × CommandContext} (haof : r.2.aof = none)
    (hsnapshot : r.2.snapshot = ctx.snapshot) : Determined ctx (pure r) :=
  ⟨r, haof, hsnapshot, settles_pure rfl⟩

/-- Without a log a record is dropped. -/
theorem determined_persist (haof : ctx.aof = none) (effect : Effect) :
    Determined ctx (CommandRegistry.persist env.config effect ctx) := by
  simp only [CommandRegistry.persist]
  split
  · next hsome =>
    rw [haof] at hsome
    cases hsome
  · exact determined_pure haof rfl

/-- Without failures `SAVE` is determined by its context. -/
theorem determined_save (haof : ctx.aof = none) (args : List Bytes) :
    Determined ctx (Commands.save env order now ctx args) := by
  unfold Commands.save
  split_ifs
  · exact determined_pure haof rfl
  · split
    · exact determined_pure haof rfl
    · next store _ =>
      obtain ⟨⟨status, storage⟩, hr⟩ := SnapshotStore.settles_save env store order now ctx.storage
      rw [haof]
      refine ⟨(if status.isOk then Commands.ok else Commands.err status.message, { ctx with storage }),
        haof, rfl, hr.bind ?_⟩
      rintro _ rfl
      dsimp only
      split_ifs <;> simp_all [settles_pure]

/-- Without failures and without a log the commands on files are determined. -/
theorem determined_special (haof : ctx.aof = none) (name : CommandName) (args : List Bytes) :
    Determined ctx (Commands.special name env order now ctx args) := by
  unfold Commands.special
  split
  · exact determined_save haof args
  · simp only [Commands.bgrewriteaof, haof, Option.filter_none]
    split_ifs <;> exact determined_pure haof rfl
  · unfold Commands.shutdown
    rw [haof]
    split_ifs
    · exact determined_pure haof rfl
    · exact determined_pure haof rfl
    · exact determined_pure rfl rfl
  · obtain ⟨level, metrics, hctx⟩ := configCmd_context env.config ctx args
    have haof' : (Commands.configCmd env.config ctx args).2.aof = none := by rw [hctx, haof]
    exact determined_pure haof' (by rw [hctx])

variable (env order now) in
/-- Without a log, what a command answers and what becomes of the context does not depend on the
files. -/
theorem determined_execute (haof : ctx.aof = none) (args : List Bytes) :
    Determined ctx (CommandRegistry.execute env order now ctx args) := by
  unfold CommandRegistry.execute
  split
  · exact determined_pure haof rfl
  · split
    · exact determined_pure haof rfl
    · split
      · exact determined_persist haof _
      · exact determined_special haof _ _

/-- Two states of a replay with the same context. -/
structure SameContext (env : Env) (s t : CommandContext × FileSystem FileName) : Prop where
  eq : s.1 = t.1
  aof : s.1.aof = none
  snapshot : s.1.snapshot = some (.ofConfig env.config)

variable (env order now) in
/-- A record does the same to two servers that differ in their files only. -/
theorem replayCommand_sameContext (s t : CommandContext × FileSystem FileName) (args : List Bytes)
    (h : SameContext env s t) :
    (replayCommand env order now s args).1 = (replayCommand env order now t args).1 ∧
      SameContext env (replayCommand env order now s args).2 (replayCommand env order now t args).2 := by
  obtain ⟨ctx, fs⟩ := s
  obtain ⟨_, fs'⟩ := t
  obtain ⟨rfl, haof, hsnapshot⟩ := h
  obtain ⟨⟨result, ctx'⟩, haof', hsnapshot', hr⟩ := determined_execute env order now haof args
  obtain ⟨_, w, hrun, -, rfl⟩ := (hr ⟨fs, []⟩ rfl).exists_ok
  obtain ⟨_, w', hrun', -, rfl⟩ := (hr ⟨fs', []⟩ rfl).exists_ok
  simp only [replayCommand, hrun, hrun']
  split_ifs <;> exact ⟨rfl, rfl, haof', hsnapshot'.trans hsnapshot⟩

end Replay

/-! ## `SAVE` -/

/-- The log and the manifest are as they were. -/
structure Unmoved (env : Env) (fs fs' : FileSystem FileName) : Prop where
  aof : fs'.read .aof = fs.read .aof
  manifest : fs'.read (SnapshotStore.ofConfig env.config).manifestFile
    = fs.read (SnapshotStore.ofConfig env.config).manifestFile

section Save

variable {env : Env} {order : IterationOrder} {now : TimePoint} {fs fs' : FileSystem FileName}

/-- Nothing has moved. -/
theorem Unmoved.refl (env : Env) (fs : FileSystem FileName) : Unmoved env fs fs := ⟨rfl, rfl⟩

/-- A snapshot that no manifest names stays so while the manifest stays. -/
theorem Unreferenced.unmoved (h : Unreferenced env fs) (hun : Unmoved env fs fs') :
    Unreferenced env fs' := by
  intro m hm
  rw [hun.aof]
  exact h m ⟨hun.manifest ▸ hm.read, hm.snapshot, hm.aof⟩

/-- Without a manifest that refers to the log, recovery depends on the log only. -/
theorem Unreferenced.recover_unmoved (h : Unreferenced env fs) (hun : Unmoved env fs fs')
    (order : IterationOrder) (T : TimePoint) :
    (recover env order T fs').1 = (recover env order T fs).1 ∧
      (recover env order T fs').2.1 = (recover env order T fs).2.1 := by
  have hreplay := replayFile_related (R := SameContext env) (replayCommand_sameContext env order T)
    env.config.persistence.aofPath (fs.read .aof) env.config.protocol 0
    (s := (replayContext env (freshStorage env), fs')) (t := (replayContext env (freshStorage env), fs))
    ⟨rfl, rfl, rfl⟩
  rw [h.recover_eq, (h.unmoved hun).recover_eq]
  simp only [replayLog, hun.aof]
  exact ⟨by rw [hreplay.1], hreplay.2.eq⟩

/-- Recovery depends on the log, the manifest and the snapshot only. -/
theorem Unmoved.recover (h : Unmoved env fs fs') (hsnapshot : fs'.read .snapshot = fs.read .snapshot)
    (order : IterationOrder) (T : TimePoint) :
    (Recovery.recover env order T fs').1 = (Recovery.recover env order T fs).1 ∧
      (Recovery.recover env order T fs').2.1 = (Recovery.recover env order T fs).2.1 := by
  have hload : (SnapshotStore.ofConfig env.config).loadForRecovery env T fs'
      = (SnapshotStore.ofConfig env.config).loadForRecovery env T fs := by
    funext aofPath aofSize storage
    rw [SnapshotStore.loadForRecovery, SnapshotStore.loadForRecovery, FileSystem.has, FileSystem.has,
      h.manifest, hsnapshot]
  have hreplay := fun storage offset =>
    replayFile_related (R := SameContext env) (replayCommand_sameContext env order T)
      env.config.persistence.aofPath (fs.read .aof) env.config.protocol offset
      (s := (replayContext env storage, fs')) (t := (replayContext env storage, fs)) ⟨rfl, rfl, rfl⟩
  simp only [Recovery.recover, h.aof, hload]
  split_ifs
  · exact ⟨rfl, rfl⟩
  · exact ⟨by rw [(hreplay _ _).1], (hreplay _ _).2.eq⟩
  · exact ⟨by rw [(hreplay _ _).1], (hreplay _ _).2.eq⟩

/-- `SAVE` moves neither the log nor, before its last step, the manifest. -/
theorem Unmoved.of_keeps
    (h : Keeps [.snapshotTmp, .snapshot, (SnapshotStore.ofConfig env.config).manifestTmpFile] fs fs') :
    Unmoved env fs fs' := by
  have hsep := SnapshotStore.separate_ofConfig env.config
  have htmp := hsep.tmp_ne
  have hne := hsep.ne
  simp only [List.mem_cons, not_or] at htmp hne
  refine ⟨h.read ?_, h.read ?_⟩
  · simp [Ne.symm htmp.1]
  · simp only [List.mem_cons, not_or]
    exact ⟨hne.2.2.1, hne.2.2.2.1, Ne.symm htmp.2.2.2.2.1, by simp⟩

/-- A removal that stops has removed nothing. -/
theorem spec_removeIfSafe_of_crash {w : World FileName} (path : Bytes) (name : FileName) :
    Spec (removeIfSafe path name) w (fun _ _ => True) fun w' => w'.fs = w.fs := by
  unfold removeIfSafe
  split_ifs
  · rw [spec_discard]
    exact spec_call (fun _ _ _ => trivial) (fun _ _ _ _ => trivial) fun _ hfs _ => hfs
  · trivial

/-- A `SAVE` that dies or fails has not committed. Without an open log its last step is to remove
the manifest, and nothing can fail after that. -/
theorem SnapshotStore.spec_save_stopped {w : World FileName} (storage : StorageEngine)
    (aof : Option Aof) :
    Spec ((SnapshotStore.ofConfig env.config).save env order now storage aof) w
      (fun r w' => r.1.isOk = false → Unmoved env w.fs w'.fs)
      (fun w' => Unmoved env w.fs w'.fs) := by
  cases haof : aof.filter fun aof => aof.enabled env.config.persistence with
  | some opened =>
    obtain ⟨rfl, hen⟩ := Option.filter_eq_some_iff.mp haof
    refine (spec_save (SnapshotStore.separate_ofConfig env.config) order now storage hen).mono
      (fun r w' h hfailed => ?_) fun w' h => .of_keeps h.1.keeps
    rcases h.2 with ⟨hok, -⟩ | ⟨-, -, hun⟩
    · rw [hfailed] at hok
      cases hok
    · exact .of_keeps hun.keeps
  | none =>
    simp only [save, haof]
    rw [spec_bind]
    refine (spec_saveSnapshotFile order now storage).mono (fun r w₁ h₁ => ?_)
      fun w₁ h₁ => .of_keeps (h₁.1.mono (by simp))
    obtain ⟨status, storage'⟩ := r
    rcases h₁.2 with ⟨hok, -, -, hkeeps, -⟩ | ⟨hok, -, hkeeps⟩
    · simp only at hok
      simp only [hok, if_true]
      rw [spec_bind]
      refine (spec_removeIfSafe_of_crash _ _).mono (fun _ w₂ _ => ?_) fun w₂ hfs => ?_
      · exact spec_pure.mpr fun hfailed => absurd hok (by simpa using hfailed)
      · rw [hfs]
        exact .of_keeps (hkeeps.mono (by simp))
    · simp only at hok
      simp only [hok, Bool.false_eq_true, if_false]
      exact spec_pure.mpr fun _ => .of_keeps (hkeeps.mono (by simp))

variable {ctx : CommandContext} {args : List Bytes}

variable (order now args) in
/-- What a `SAVE` leaves if it stops or says no. -/
theorem spec_save_stopped (hsnapshot : ctx.snapshot = some (.ofConfig env.config)) {w : World FileName} :
    Spec (Commands.save env order now ctx args) w
      (fun r w' => r.1.isError = true → Unmoved env w.fs w'.fs) (fun w' => Unmoved env w.fs w'.fs) := by
  unfold Commands.save
  split_ifs
  · exact spec_pure.mpr fun _ => .refl env w.fs
  · rw [hsnapshot]
    dsimp only
    rw [spec_bind]
    refine (SnapshotStore.spec_save_stopped ctx.storage ctx.aof).mono (fun r w' h => ?_) fun _ h => h
    split_ifs with hok
    · exact spec_pure.mpr fun _ => h (by simpa using hok)
    · exact spec_pure.mpr fun herr => nomatch herr

/-! ### Every process has the store that `main` constructs -/

/-- The program leaves the store of the context alone. -/
def KeepsStore (ctx : CommandContext) (p : FileProgram FileName (CommandResult × CommandContext)) :
    Prop :=
  ∀ w, Spec p w (fun r _ => r.2.snapshot = ctx.snapshot) fun _ => True

/-- A command that ends at once keeps the paths of the store. -/
theorem keepsStore_pure {r : CommandResult × CommandContext} (h : r.2.snapshot = ctx.snapshot) :
    KeepsStore ctx (pure r) := fun _ => spec_pure.mpr h

/-- What is done to the files before does not matter. -/
theorem keepsStore_bind {α : Type} {p : FileProgram FileName α}
    {f : α → FileProgram FileName (CommandResult × CommandContext)} (h : ∀ a, KeepsStore ctx (f a)) :
    KeepsStore ctx (p >>= f) := fun w =>
  spec_bind.mpr ((spec_any p w).mono (fun a w' _ => h a w') fun _ h => h)

/-- Appending a record keeps the paths of the store. -/
theorem keepsStore_persist (effect : Effect) :
    KeepsStore ctx (CommandRegistry.persist env.config effect ctx) := by
  simp only [CommandRegistry.persist]
  split
  · split_ifs
    · exact keepsStore_pure rfl
    · refine keepsStore_bind fun r => ?_
      split_ifs <;> exact keepsStore_pure rfl
  · exact keepsStore_pure rfl

/-- The commands on files keep the paths of the store. -/
theorem keepsStore_special (name : CommandName) :
    KeepsStore ctx (Commands.special name env order now ctx args) := by
  unfold Commands.special
  split
  · unfold Commands.save
    split_ifs
    · exact keepsStore_pure rfl
    · split
      · exact keepsStore_pure rfl
      · refine keepsStore_bind fun r => ?_
        dsimp only
        split_ifs <;> exact keepsStore_pure rfl
  · unfold Commands.bgrewriteaof
    split_ifs
    · exact keepsStore_pure rfl
    · split
      · exact keepsStore_pure rfl
      · refine keepsStore_bind fun r => ?_
        dsimp only
        split_ifs <;> exact keepsStore_pure rfl
  · unfold Commands.shutdown
    split_ifs
    · exact keepsStore_pure rfl
    · exact keepsStore_pure rfl
    · dsimp only
      split
      · exact keepsStore_pure rfl
      · exact keepsStore_bind fun _ => keepsStore_pure rfl
  · obtain ⟨level, metrics, hctx⟩ := configCmd_context env.config ctx args
    have hsnapshot : (Commands.configCmd env.config ctx args).2.snapshot = ctx.snapshot := by rw [hctx]
    exact keepsStore_pure hsnapshot

variable (env order now ctx args) in
/-- Every command keeps the paths of the store. -/
theorem keepsStore_execute : KeepsStore ctx (CommandRegistry.execute env order now ctx args) := by
  unfold CommandRegistry.execute
  split
  · exact keepsStore_pure rfl
  · split
    · exact keepsStore_pure rfl
    · split
      · exact keepsStore_persist _
      · exact keepsStore_special _

variable (env order now fs) in
/-- After a restart the paths of the store are those of the settings. -/
theorem snapshot_recover :
    (recover env order now fs).2.1.snapshot = some (.ofConfig env.config) := by
  have hreplay := fun storage offset =>
    replayFile_related (R := SameContext env) (replayCommand_sameContext env order now)
      env.config.persistence.aofPath (fs.read .aof) env.config.protocol offset
      (s := (replayContext env storage, fs)) (t := (replayContext env storage, fs)) ⟨rfl, rfl, rfl⟩
  simp only [recover]
  split_ifs
  · rfl
  · exact (hreplay _ _).2.snapshot
  · exact (hreplay _ _).2.snapshot

/-- A server that starts has the paths of the settings. -/
theorem spec_start {w : World FileName} :
    Spec (start env order now) w
      (fun r _ => ∀ ctx, r = .ok ctx → ctx.snapshot = some (.ofConfig env.config)) fun _ => True := by
  unfold start
  rw [spec_bind, spec_files]
  -- what follows the recovery, whatever it ended in
  have hrest : ∀ r : Status × CommandContext × FileSystem FileName,
      r.2.1.snapshot = some (.ofConfig env.config) →
      Spec (do
        modify fun w => { w with fs := r.2.2 }
        if !r.1.isOk then return .error r.1
        let opened ← Aof.openAof env {}
        if !opened.1.isOk then return .error opened.1
        return .ok { r.2.1 with aof := some opened.2, hasRequestShutdown := true, replay := false }) w
      (fun (r : Except Status CommandContext) _ =>
        ∀ ctx, r = .ok ctx → ctx.snapshot = some (.ofConfig env.config)) fun _ => True := by
    intro r hctx
    rw [spec_bind]
    refine (spec_any _ _).mono (fun _ w₁ _ => ?_) fun _ h => h
    split_ifs
    · exact spec_pure.mpr fun _ h => by cases h
    · rw [spec_bind]
      refine (spec_any _ _).mono (fun r w₂ _ => ?_) fun _ h => h
      split_ifs
      · exact spec_pure.mpr fun _ h => by cases h
      · refine spec_pure.mpr fun _ h => ?_
        cases h
        exact hctx
  cases hen : env.config.persistence.aofEnabled with
  | true => exact hrest (recover env order now w.fs) (snapshot_recover env order now w.fs)
  | false => exact hrest (.ok, replayContext env _, w.fs) rfl

/-- In every server that events reach, the process has the store of the configuration. -/
theorem Server.Run.snapshot_eq {allowed : Server → Event → Option CommandResult → Server → Prop}
    {s : Server} (h : Server.Run env allowed s) :
    ∀ ctx ∈ s.process, ctx.snapshot = some (.ofConfig env.config) := by
  induction h with
  | init => intro ctx hctx; cases hctx
  | @step s e _ _ ih =>
    intro ctx hctx
    cases e with
    | request now order plan args =>
      simp only [Server.step] at hctx
      split at hctx
      · next hnone => rw [hnone] at hctx; cases hctx
      · next ctx₀ hsome =>
        split at hctx
        · next hrun =>
          obtain rfl := Option.mem_some_iff.mp hctx
          exact ((keepsStore_execute env order now ctx₀ args _).of_ok hrun).trans (ih ctx₀ hsome)
        · cases hctx
    | activeExpire now =>
      obtain ⟨ctx₀, hctx₀, rfl⟩ := Option.map_eq_some_iff.mp hctx
      exact ih ctx₀ hctx₀
    | restart now order plan =>
      simp only [Server.step] at hctx
      split at hctx
      · next hrun =>
        obtain rfl := Option.mem_some_iff.mp hctx
        exact spec_start.of_ok hrun _ rfl
      · cases hctx
      · cases hctx

/-- The files of a `SAVE` that died or failed. -/
theorem Server.Run.unmoved_of_save {allowed : Server → Event → Option CommandResult → Server → Prop}
    {s : Server} (hrun : Server.Run env allowed s) {plan : List CallOutcome}
    (hname : CommandName.ofArgs args = some .save)
    (hstop : ∀ result ∈ (s.step env (.request now order plan args)).1, result.isError = true) :
    Unmoved env s.fs (s.step env (.request now order plan args)).2.fs := by
  obtain ⟨process, fs, clock⟩ := s
  cases process with
  | none => exact .refl env fs
  | some ctx =>
    have hspec := spec_save_stopped order now args (hrun.snapshot_eq ctx rfl) (w := ⟨fs, plan⟩)
    have hexec : CommandRegistry.execute env order now ctx args
        = Commands.save env order now ctx args := execute_of_special hname rfl
    simp only [Server.step, hexec] at hstop ⊢
    cases hsave : Commands.save env order now ctx args ⟨fs, plan⟩ with
    | error e w => exact hspec.of_error hsave
    | ok r w =>
      simp only [hsave] at hstop ⊢
      exact hspec.of_ok hsave (hstop _ rfl)

/-- A `SAVE` that went through has put the snapshot and the manifest in place. -/
theorem Serving.save_committed {log : Bytes} (h : Serving env ctx fs log)
    (hen : env.config.persistence.aofEnabled = true) {plan : List CallOutcome} {result : CommandResult}
    {ctx' : CommandContext} {w : World FileName}
    (hsave : Commands.save env order now ctx args ⟨fs, plan⟩ = .ok (result, ctx') w)
    (hok : result.isError = false) : SaveOutcome env order now ctx.storage log fs w.fs := by
  obtain ⟨aof, haof, hatt⟩ := h.aof
  have hspec : Spec (Commands.save env order now ctx args) ⟨fs, plan⟩
      (fun r w' => r.1.isError = false → SaveOutcome env order now ctx.storage log fs w'.fs)
      fun _ => True := by
    unfold Commands.save
    split_ifs
    · exact spec_pure.mpr fun herr => nomatch herr
    · rw [h.snapshot, haof]
      dsimp only
      rw [spec_bind]
      refine (SnapshotStore.spec_save (SnapshotStore.separate_ofConfig env.config) order now ctx.storage
        (hatt.enabled hen)).mono (fun r w' hout => ?_) fun _ _ => trivial
      rcases hout.2 with ⟨hcommitted, -, hfiles⟩ | ⟨hfailed, -⟩
      · simp only [hcommitted, Bool.not_true, Bool.false_eq_true, if_false]
        exact spec_pure.mpr fun _ => .inl (hatt.size ▸ hfiles)
      · simp only [hfailed, Bool.not_false, if_true]
        exact spec_pure.mpr fun herr => nomatch herr
  exact hspec.of_ok hsave hok

/-- **A `SAVE` that stops on the way** leaves recovery as it was, wherever the process dies or a call
fails, except in one window: where the snapshot has changed, and the manifest not yet, no manifest
may refer to the log. Behind the window the `SAVE` has gone through, and recovery gives the same keys
and values, if only plain steps have led to it. -/
theorem recover_of_stopped_save {s : Server} (hrun : Server.Run env (fun _ _ _ _ => True) s)
    {plan : List CallOutcome} (hname : CommandName.ofArgs args = some .save) (order' : IterationOrder)
    (T : TimePoint) :
    ((∀ result ∈ (s.step env (.request now order plan args)).1, result.isError = true) →
      ((s.step env (.request now order plan args)).2.fs.read .snapshot ≠ s.fs.read .snapshot →
        Unreferenced env s.fs) →
      (recover env order' T (s.step env (.request now order plan args)).2.fs).1
          = (recover env order' T s.fs).1 ∧
        (recover env order' T (s.step env (.request now order plan args)).2.fs).2.1
          = (recover env order' T s.fs).2.1) ∧
    ((∃ result ∈ (s.step env (.request now order plan args)).1, result.isError = false) →
      env.config.persistence.aofEnabled = true → env.config.persistence.manifestPath ≠ [] →
      3 ≤ env.config.protocol.maxArrayElements → Server.Run env (PlainStep env) s →
      FilesFit env (s.step env (.request now order plan args)).2.fs →
      (recover env order' T (s.step env (.request now order plan args)).2.fs).1
          = (recover env order' T s.fs).1 ∧
        (recover env order' T (s.step env (.request now order plan args)).2.fs).2.1.storage.keyspace
          = (recover env order' T s.fs).2.1.storage.keyspace) := by
  constructor
  · intro hstop hwindow
    have hunmoved := hrun.unmoved_of_save hname hstop
    by_cases hsame : (s.step env (.request now order plan args)).2.fs.read .snapshot = s.fs.read .snapshot
    · exact hunmoved.recover hsame order' T
    · exact (hwindow hsame).recover_unmoved hunmoved order' T
  · rintro ⟨result, hresult, hok⟩ hen hpath helements hplain hfit
    have hdurable := hplain.durable hen hpath helements
    obtain ⟨process, fs, clock⟩ := s
    cases process with
    | none => cases hresult
    | some ctx =>
      obtain ⟨hfit₀, records, hserving, hrec⟩ := hdurable
      have hexec : CommandRegistry.execute env order now ctx args
          = Commands.save env order now ctx args := execute_of_special hname rfl
      simp only [Server.step, hexec] at hresult hfit ⊢
      cases hsave : Commands.save env order now ctx args ⟨fs, plan⟩ with
      | error e w =>
        simp only [hsave] at hresult
        cases hresult
      | ok r w =>
        obtain ⟨reply, ctx'⟩ := r
        simp only [hsave, Option.mem_def, Option.some.injEq] at hresult hfit ⊢
        subst hresult
        have hout := hserving.save_committed hen hsave hok
        obtain ⟨aof, -, hatt⟩ := hserving.aof
        have hlog : w.fs.read .aof = some (records.flatMap encodeCommand) := (hout.attached hatt).contents
        have hrec' := hrec.save hserving.wf hserving.setup helements hout (hfit .snapshot (by simp)) hlog
        obtain ⟨P, hbefore, hP⟩ := hrec.recover hserving.safe (hserving.fit hfit₀) order' T
        obtain ⟨P', hafter, hP'⟩ := hrec'.recover hserving.safe (hserving.fit hfit₀) order' T
        rw [hbefore, hafter]
        exact ⟨rfl, hP'.keyspace.trans hP.keyspace.symm⟩

end Save

/-- A counter, a checkpoint, and a record behind it. -/
def savedRun : List Event :=
  [.calmStart 0, .calmRequest 0 ["SET", "k", "1"], .calmRequest 1 ["SAVE"], .calmRequest 2 ["INCR", "k"]]

/-- A `SAVE` whose process dies after so many calls. -/
def dyingAfter (calls : ℕ) : Event :=
  .request 3 .listed (List.replicate calls .ok ++ [.crash]) [ascii "SAVE"]

/-- A `SAVE` whose process dies right after the new snapshot has taken the place of the old one. -/
def dyingSave : Event := dyingAfter 5

set_option maxRecDepth 100000 in
/-- The record behind the old checkpoint is replayed on the new snapshot, which holds its effect. -/
theorem dying_save_counts_twice :
    Server.Run plainEnv (fun _ _ _ _ => True) (Server.after plainEnv {} savedRun) ∧
      ((Server.after plainEnv {} savedRun).step plainEnv dyingSave).1 = none ∧
      (recover plainEnv .listed 4 (Server.after plainEnv {} savedRun).fs).1 = .ok ∧
      (recover plainEnv .listed 4 (Server.after plainEnv {} savedRun).fs).2.1.storage.keyspace.visible 4
        (ascii "k") = some ⟨ascii "2", none⟩ ∧
      (recover plainEnv .listed 4
        ((Server.after plainEnv {} savedRun).step plainEnv dyingSave).2.fs).1 = .ok ∧
      (recover plainEnv .listed 4
        ((Server.after plainEnv {} savedRun).step plainEnv dyingSave).2.fs).2.1.storage.keyspace.visible 4
          (ascii "k") = some ⟨ascii "3", none⟩ :=
  ⟨.after .init (by decide), by decide +kernel⟩

/-- The counter without a checkpoint. -/
def unsavedRun : List Event :=
  [.calmStart 0, .calmRequest 0 ["SET", "k", "1"], .calmRequest 2 ["INCR", "k"]]

/-- Without a manifest no snapshot is named. -/
theorem Unreferenced.of_absent {env : Env} {fs : FileSystem FileName}
    (h : fs.read (SnapshotStore.ofConfig env.config).manifestFile = none) : Unreferenced env fs := by
  intro m hm
  have hread := hm.read
  rw [h] at hread
  simp [SnapshotStore.readManifest] at hread

set_option maxRecDepth 100000 in
/-- With a manifest from an earlier `SAVE`, one that dies in front of the rename and one that goes
through; without, one that dies behind the rename. -/
theorem saves_may_stop :
    (((Server.after plainEnv {} savedRun).step plainEnv (dyingAfter 4)).1 = none ∧
      (recover plainEnv .listed 4
          ((Server.after plainEnv {} savedRun).step plainEnv (dyingAfter 4)).2.fs).2.1
        = (recover plainEnv .listed 4 (Server.after plainEnv {} savedRun).fs).2.1) ∧
    (((Server.after plainEnv {} savedRun).step plainEnv (.calmRequest 3 ["SAVE"])).1 = some Commands.ok ∧
      (recover plainEnv .listed 4 ((Server.after plainEnv {} savedRun).step plainEnv
          (.calmRequest 3 ["SAVE"])).2.fs).2.1.storage.keyspace
        = (recover plainEnv .listed 4 (Server.after plainEnv {} savedRun).fs).2.1.storage.keyspace) ∧
    (((Server.after plainEnv {} unsavedRun).step plainEnv dyingSave).1 = none ∧
      (recover plainEnv .listed 4
          ((Server.after plainEnv {} unsavedRun).step plainEnv dyingSave).2.fs).2.1
        = (recover plainEnv .listed 4 (Server.after plainEnv {} unsavedRun).fs).2.1) := by
  have hrun : ∀ events, Server.AllAllowed plainEnv (fun _ _ _ _ => True) {} events := by
    intro events
    generalize ({} : Server) = s
    induction events generalizing s with
    | nil => trivial
    | cons e events ih => exact ⟨trivial, ih _⟩
  have hearly : ((Server.after plainEnv {} savedRun).step plainEnv (dyingAfter 4)).1 = none := by
    decide +kernel
  have hdone : ((Server.after plainEnv {} savedRun).step plainEnv (.calmRequest 3 ["SAVE"])).1
      = some Commands.ok := by decide +kernel
  have hdies : ((Server.after plainEnv {} unsavedRun).step plainEnv dyingSave).1 = none := by
    decide +kernel
  refine ⟨⟨hearly, ?_⟩, ⟨hdone, ?_⟩, hdies, ?_⟩
  · refine ((recover_of_stopped_save (.after .init (hrun _)) rfl _ _).1 ?_ ?_).2
    · exact fun result hresult => nomatch hearly.symm.trans hresult
    · exact fun hne => absurd (by decide +kernel) hne
  · refine ((recover_of_stopped_save (.after .init (hrun _)) rfl _ _).2 ⟨_, hdone, rfl⟩ rfl (by decide)
      (by decide) (.after .init ?_) ?_).2
    · decide +kernel
    · decide +kernel
  · refine ((recover_of_stopped_save (.after .init (hrun _)) rfl _ _).1 ?_ ?_).2
    · exact fun result hresult => nomatch hdies.symm.trans hresult
    · exact fun _ => .of_absent (by decide +kernel)

/-! ## `BGREWRITEAOF` -/

section Rewrite

variable {env : Env} {order : IterationOrder} {now : TimePoint} {fs fs' : FileSystem FileName}
  {ctx : CommandContext} {args : List Bytes} {records : List (List Bytes)}

variable (order now) in
/-- Recovery in the middle of a rewrite. -/
theorem Recoverable.recover_of_rewriteStage (h : Recoverable env fs records ctx.storage.keyspace)
    (hserving : Serving env ctx fs (records.flatMap encodeCommand)) (hfits : FilesFit env fs)
    (helements : 3 ≤ env.config.protocol.maxArrayElements)
    (hfit : FileFits env (snapshotText order now ctx.storage))
    (hpath : env.config.persistence.manifestPath ≠ [])
    (hstage : RewriteStage (snapshotText order now ctx.storage) fs fs')
    (hstale : fs'.read .aof ≠ fs.read .aof →
      ∀ m, Names env fs' m → (snapshotText order now ctx.storage).length < m.aofOffset)
    (order' : IterationOrder) (T : TimePoint) :
    ∃ P, Recovery.recover env order' T fs' = (.ok, replayContext env P, fs') ∧
      P.keyspace = ctx.storage.keyspace := by
  have hne := (SnapshotStore.separate_ofConfig env.config).ne
  simp only [List.mem_cons, not_or] at hne
  -- the old log, with the snapshot and the manifest that it had
  have hold : fs'.read .aof = fs.read .aof → fs'.read .snapshot = fs.read .snapshot →
      fs'.read (SnapshotStore.ofConfig env.config).manifestFile
        = fs.read (SnapshotStore.ofConfig env.config).manifestFile →
      ∃ P, Recovery.recover env order' T fs' = (.ok, replayContext env P, fs') ∧
        P.keyspace = ctx.storage.keyspace := fun hlog hsnapshot hmanifest => by
    obtain ⟨P, hrec, hP⟩ :=
      (h.congr hlog hsnapshot hmanifest).recover hserving.safe (hserving.fit hfits) order' T
    exact ⟨P, hrec, hP.keyspace⟩
  -- the new log, next to a manifest that points behind its end
  have hnew : fs'.read .aof = some (snapshotText order now ctx.storage) →
      (∀ m, Names env fs' m → (snapshotText order now ctx.storage).length < m.aofOffset) →
      ∃ P, Recovery.recover env order' T fs' = (.ok, replayContext env P, fs') ∧
        P.keyspace = ctx.storage.keyspace := fun hlog hstale => by
    have hun : Unreferenced env fs' := fun m hm => by
      rw [hlog]
      exact hstale m hm
    obtain ⟨P, hrec, hP⟩ := Recoverable.recover_of_unreferenced hun hserving.safe hlog
      (within_snapshotRecords hserving.wf hserving.setup h.untimed helements (fun _ _ hx => h.keys hx) hfit)
      hfit (.of_snapshot hserving.wf hserving.setup h.untimed order now) order' T
    exact ⟨P, hrec, hP.keyspace⟩
  cases hstage with
  | before hkeeps =>
    exact hold (hkeeps.read (by decide)) (hkeeps.read (by decide)) (hkeeps.read (by simp [hne]))
  | swapped hkeeps hlog =>
    by_cases hsame : fs'.read .aof = fs.read .aof
    · exact hold hsame (hkeeps.read (by decide)) (hkeeps.read (by simp [hne]))
    · exact hnew hlog (hstale hsame)
  | cleaned _ hlog hnone =>
    refine hnew hlog fun m hm => ?_
    have hread := hm.read
    rw [(SnapshotStore.ofConfig_manifest hpath).1, hnone] at hread
    simp [SnapshotStore.readManifest] at hread

variable (ctx order now args) in
/-- Wherever a rewrite stops, the files are at one of its stages. -/
theorem spec_bgrewriteaof_stage (hen : env.config.persistence.aofEnabled = true)
    (hsafe : pathIsSafe env.config.persistence.aofPath = true) {w : World FileName} :
    Spec (Commands.bgrewriteaof env order now ctx args) w
      (fun _ w' => RewriteStage (snapshotText order now ctx.storage) w.fs w'.fs)
      (fun w' => RewriteStage (snapshotText order now ctx.storage) w.fs w'.fs) := by
  unfold Commands.bgrewriteaof
  split_ifs
  · exact spec_pure.mpr (.before (Keeps.refl _ _))
  · split
    · exact spec_pure.mpr (.before (Keeps.refl _ _))
    · next aof _ =>
      rw [spec_bind]
      refine (Aof.spec_rewrite order now aof ctx.storage hen hsafe).mono (fun r w' h => ?_)
        fun _ h => h.1
      dsimp only
      split_ifs <;> exact spec_pure.mpr h.1

/-- **A `BGREWRITEAOF` that stops on the way**, or goes through: after any run of plain steps,
wherever the process dies or a call fails, recovery from the files left behind succeeds and gives the
live keys and values, except in one window: where the log has changed, and a manifest that names the
files is still there, it has to point behind the end of the rewritten log. -/
theorem recover_of_stopped_rewrite (hen : env.config.persistence.aofEnabled = true)
    (hpath : env.config.persistence.manifestPath ≠ [])
    (helements : 3 ≤ env.config.protocol.maxArrayElements) {s : Server}
    (hrun : Server.Run env (PlainStep env) s) (hctx : s.process = some ctx)
    (hfit : FileFits env ((liveRecords ctx.storage now).flatMap encodeCommand))
    {plan : List CallOutcome} (hname : CommandName.ofArgs args = some .bgrewriteaof)
    (hstale : (s.step env (.request now order plan args)).2.fs.read .aof ≠ s.fs.read .aof →
      ∀ m, Names env (s.step env (.request now order plan args)).2.fs m →
        ((liveRecords ctx.storage now).flatMap encodeCommand).length < m.aofOffset)
    (order' : IterationOrder) (T : TimePoint) :
    ∃ P, recover env order' T (s.step env (.request now order plan args)).2.fs
        = (.ok, replayContext env P, (s.step env (.request now order plan args)).2.fs) ∧
      P.keyspace = ctx.storage.keyspace := by
  have hdurable := hrun.durable hen hpath helements
  simp only [Durable, hctx] at hdurable
  obtain ⟨hfits, records, hserving, hrec⟩ := hdurable
  have hlen := Encodable.length_snapshotText ctx.storage now order
  refine hrec.recover_of_rewriteStage order now hserving hfits helements ?_ hpath ?_ ?_ order' T
  · exact ⟨hlen.trans_le hfit.request, hlen.trans_le hfit.size⟩
  · have hspec := spec_bgrewriteaof_stage order now ctx args hen hserving.safe (w := ⟨s.fs, plan⟩)
    have hexec : CommandRegistry.execute env order now ctx args
        = Commands.bgrewriteaof env order now ctx args := execute_of_special hname rfl
    simp only [Server.step, hctx, hexec]
    cases hrewrite : Commands.bgrewriteaof env order now ctx args ⟨s.fs, plan⟩ with
    | error e w => exact hspec.of_error hrewrite
    | ok r w => exact hspec.of_ok hrewrite
  · exact fun hne m hm => hlen.trans_lt (hstale hne m hm)

end Rewrite

/-- A key that is overwritten before the checkpoint, so that the rewritten log is shorter than that.
-/
def overwrittenRun : List Event :=
  [.calmStart 0, .calmRequest 0 ["SET", "k", "1"], .calmRequest 0 ["SET", "k", "2"], .calmRequest 1 ["SAVE"],
    .calmRequest 2 ["INCR", "k"]]

/-- A key is written behind the checkpoint; the live entries are listed with the new key first. -/
def grownRun : List Event :=
  [.calmStart 0, .calmRequest 0 ["SET", "a", "1"], .calmRequest 1 ["SAVE"],
    .calmRequest 2 ["SET", "b", "2"]]

/-- After these events and a `BGREWRITEAOF` with these answers, recovery succeeds and gives the live
keys and values. -/
def RewriteRecovers (events : List Event) (plan : List CallOutcome) : Prop :=
  ∃ ctx P, (Server.after plainEnv {} events).process = some ctx ∧
    recover plainEnv .listed 4
        ((Server.after plainEnv {} events).step plainEnv
          (.request 3 .listed plan [ascii "BGREWRITEAOF"])).2.fs
      = (.ok, replayContext plainEnv P, ((Server.after plainEnv {} events).step plainEnv
          (.request 3 .listed plan [ascii "BGREWRITEAOF"])).2.fs) ∧
    P.keyspace = ctx.storage.keyspace

set_option maxRecDepth 100000 in
/-- With a manifest that points into the rewritten log, one that dies at once and one that goes
through; with one that points behind it, one that dies in the window. -/
theorem rewrites_may_stop :
    RewriteRecovers grownRun [.crash] ∧ RewriteRecovers grownRun [] ∧
      RewriteRecovers overwrittenRun (List.replicate 5 .ok ++ [.crash]) := by
  have hstate : ∀ x ∈ [(grownRun, [.crash]), (grownRun, []),
        (overwrittenRun, List.replicate 5 .ok ++ [.crash])],
      Server.AllAllowed plainEnv (PlainStep plainEnv) {} x.1 ∧
      (Server.after plainEnv {} x.1).process.isSome = true ∧
      ∀ ctx ∈ (Server.after plainEnv {} x.1).process,
        FileFits plainEnv ((liveRecords ctx.storage 3).flatMap encodeCommand) ∧
          (((Server.after plainEnv {} x.1).step plainEnv
              (.request 3 .listed x.2 [ascii "BGREWRITEAOF"])).2.fs.read .aof
            ≠ (Server.after plainEnv {} x.1).fs.read .aof →
          ∀ m ∈ (SnapshotStore.ofConfig plainEnv.config).readManifest
              (((Server.after plainEnv {} x.1).step plainEnv
                (.request 3 .listed x.2 [ascii "BGREWRITEAOF"])).2.fs.read .manifest),
            ((liveRecords ctx.storage 3).flatMap encodeCommand).length < m.aofOffset) := by
    decide +kernel
  have hrecovers : ∀ x ∈ [(grownRun, [.crash]), (grownRun, []),
      (overwrittenRun, List.replicate 5 .ok ++ [.crash])], RewriteRecovers x.1 x.2 := by
    intro x hx
    obtain ⟨hplain, hrunning, hlive⟩ := hstate x hx
    obtain ⟨ctx, hctx⟩ := Option.isSome_iff_exists.mp hrunning
    obtain ⟨hfit, hstale⟩ := hlive ctx hctx
    obtain ⟨P, hrecover, hP⟩ := recover_of_stopped_rewrite rfl (by decide) (by decide)
      (.after .init hplain) hctx hfit rfl (fun hne m hm => hstale hne m hm.read) .listed 4
    exact ⟨ctx, P, hctx, hrecover, hP⟩
  exact ⟨hrecovers _ (.head _), hrecovers _ (.tail _ (.head _)),
    hrecovers _ (.tail _ (.tail _ (.head _)))⟩

/-- A `BGREWRITEAOF` whose process dies with the new log in place and the manifest not yet removed.
-/
def dyingRewrite (records : ℕ) : Event :=
  .request 3 .listed (List.replicate (records + 4) .ok ++ [.crash]) [ascii "BGREWRITEAOF"]

set_option maxRecDepth 100000 in
/-- The manifest of the old log makes recovery skip the first record of the new one. -/
theorem dying_rewrite_loses_key :
    Server.Run plainEnv (PlainStep plainEnv) (Server.after plainEnv {} grownRun) ∧
      (Server.after plainEnv {} grownRun).process.map (fun ctx =>
        ctx.storage.keyspace.visible 4 (ascii "b")) = some (some ⟨ascii "2", none⟩) ∧
      ((Server.after plainEnv {} grownRun).step plainEnv (dyingRewrite 2)).1 = none ∧
      (recover plainEnv .listed 4
        ((Server.after plainEnv {} grownRun).step plainEnv (dyingRewrite 2)).2.fs).1 = .ok ∧
      (recover plainEnv .listed 4
        ((Server.after plainEnv {} grownRun).step plainEnv (dyingRewrite 2)).2.fs).2.1.storage.keyspace
          (ascii "b") = none :=
  ⟨.after .init (by decide +kernel), by decide +kernel⟩

end VeloxDb
