import VeloxDb.Recovery.Checkpoint
import VeloxDb.Recovery.Records

/-!
# Rewriting the log

A rewrite puts a new log in the place of the old one. Two things are left over from the old one. The
manifest holds an offset into it; the rewrite removes the file at the configured path, but the
snapshot store falls back to another path if none is configured. The descriptor is that of the old
file until the new one is opened; if that fails, the process goes on writing to a file without a
name.
-/

namespace VeloxDb

open Resp Util FileProgram FileSystem Recovery

/-! ## The manifest of the old log -/

section Manifest

variable {env : Env} {fs fs' : FileSystem FileName} {later : TimePoint} {e : StorageEngine}

/-- Recovery loads a snapshot through a manifest that names the files, if the snapshot can be read.
-/
theorem loadedSnapshot_iff {size : ℕ} :
    ((SnapshotStore.ofConfig env.config).loadForRecovery env later fs env.config.persistence.aofPath
      size e).1.loadedSnapshot = true ↔
    ∃ m, Names env fs m ∧ m.aofOffset ≤ size ∧ fs.has .snapshot = true ∧
      ((SnapshotStore.ofConfig env.config).load later (fs.read .snapshot) e).1.isOk = true := by
  rw [SnapshotStore.loadForRecovery]
  cases hread : (SnapshotStore.ofConfig env.config).readManifest
      (fs.read (SnapshotStore.ofConfig env.config).manifestFile) with
  | none =>
    refine iff_of_false (by simp) ?_
    rintro ⟨m, hnames, -⟩
    rw [hnames.read] at hread
    cases hread
  | some manifest =>
    have hmanifest : ∀ m, Names env fs m → m = manifest := fun m hnames =>
      Option.some.inj (hnames.read.symm.trans hread)
    cases hmatches : (SnapshotStore.ofConfig env.config).manifestMatches env manifest
        env.config.persistence.aofPath size (fs.has .snapshot) with
    | false =>
      refine iff_of_false (by simp [hmatches]) ?_
      rintro ⟨m, hnames, hoff, hhas, -⟩
      obtain rfl := hmanifest m hnames
      rw [manifestMatches_iff.mpr ⟨⟨hnames.snapshot, hnames.aof⟩, hoff, hhas⟩] at hmatches
      cases hmatches
    | true =>
      obtain ⟨⟨hsnapshot, haof⟩, hoff, hhas⟩ := manifestMatches_iff.mp hmatches
      have hnames : Names env fs manifest := ⟨hread, hsnapshot, haof⟩
      have hload : (∃ m, Names env fs m ∧ m.aofOffset ≤ size ∧ fs.has .snapshot = true ∧
            ((SnapshotStore.ofConfig env.config).load later (fs.read .snapshot) e).1.isOk = true) ↔
          ((SnapshotStore.ofConfig env.config).load later (fs.read .snapshot) e).1.isOk = true :=
        ⟨fun h => h.elim fun _ hm => hm.2.2.2, fun hok => ⟨manifest, hnames, hoff, hhas, hok⟩⟩
      rw [hload]
      simp only [hmatches, Bool.not_true, Bool.false_eq_true, if_false]
      cases ((SnapshotStore.ofConfig env.config).load later (fs.read .snapshot) e).1.isOk <;> simp

/-- A rewrite leaves the snapshot and the manifest that the snapshot store falls back to. -/
theorem RewriteStage.read_of_ne {new : Bytes} (h : RewriteStage new fs fs') {name : FileName}
    (haof : name ≠ .aof) (htmp : name ≠ .aofTmp) (hmanifest : name ≠ .manifest) :
    fs'.read name = fs.read name := by
  cases h with
  | before keeps => exact keeps.read (by simp [htmp])
  | swapped keeps => exact keeps.read (by simp [haof, htmp])
  | cleaned keeps => exact keeps.read (by simp [haof, htmp, hmanifest])

end Manifest

/-- **After a rewrite no recovery uses an offset of the old log**, however far the new one grows,
unless no manifest path is configured and the manifest next to the snapshot names the files. -/
theorem rewrite_forgets_manifest_iff {env : Env} {order : IterationOrder} {now : TimePoint} {aof aof' : Aof}
    {storage storage' : StorageEngine} {fs : FileSystem FileName} {status : Status}
    {w : World FileName}
    (hrun : Aof.rewrite env order now aof storage ⟨fs, []⟩ = .ok (status, aof', storage') w)
    (hok : status.isOk = true) (later : TimePoint) (e : StorageEngine) :
    (∀ size, ((SnapshotStore.ofConfig env.config).loadForRecovery env later w.fs
        env.config.persistence.aofPath size e).1.loadedSnapshot = false) ↔
      (env.config.persistence.manifestPath = [] → ∀ m, Names env fs m → fs.has .snapshot = true →
        ((SnapshotStore.ofConfig env.config).load later (fs.read .snapshot) e).1.isOk = false) := by
  obtain ⟨hen, hsafe⟩ := Aof.safe_of_rewrite hrun hok
  obtain ⟨hstage, -, hcalm, -⟩ := (Aof.spec_rewrite order now aof storage hen hsafe).of_ok hrun
  obtain ⟨-, -, -, -, hmanifest⟩ := hcalm rfl
  have hsnapshot : w.fs.read .snapshot = fs.read .snapshot :=
    hstage.read_of_ne (by decide) (by decide) (by decide)
  by_cases hpath : env.config.persistence.manifestPath = []
  · -- the manifest next to the snapshot is as it was
    have hnames : ∀ m, Names env w.fs m ↔ Names env fs m := fun m => by
      have hfile : w.fs.read (SnapshotStore.ofConfig env.config).manifestFile
          = fs.read (SnapshotStore.ofConfig env.config).manifestFile := by
        have hstore : (SnapshotStore.ofConfig env.config).manifestFile = .defaultManifest := by
          simp [SnapshotStore.ofConfig, SnapshotStore.new, hpath]
        rw [hstore]
        exact hstage.read_of_ne (by decide) (by decide) (by decide)
      exact ⟨fun h => ⟨hfile ▸ h.read, h.snapshot, h.aof⟩, fun h => ⟨hfile ▸ h.read, h.snapshot, h.aof⟩⟩
    simp only [← Bool.not_eq_true, loadedSnapshot_iff, hpath, hnames, FileSystem.has, hsnapshot,
      true_imp_iff]
    constructor
    · intro h m hm hhas hload
      exact h m.aofOffset ⟨m, hm, le_rfl, hhas, hload⟩
    · rintro h size ⟨m, hm, -, hhas, hload⟩
      exact h m hm hhas hload
  · -- the manifest at the configured path is gone, or it is not read
    refine iff_of_true (fun size => ?_) fun hnil => absurd hnil hpath
    rw [← Bool.not_eq_true, loadedSnapshot_iff]
    rintro ⟨m, hm, -⟩
    have hread := hm.read
    have hsafe' := SnapshotStore.safe_of_readManifest hread
    have hstore := SnapshotStore.ofConfig_manifest hpath
    rw [hstore.1, hmanifest (hstore.2 ▸ hsafe')] at hread
    simp [SnapshotStore.readManifest] at hread

/-- A checkpoint and a write behind it. -/
def checkpointedRun : List Event :=
  [.calmStart 0, .calmRequest 0 ["SET", "a", "1"], .calmRequest 0 ["SAVE"],
    .calmRequest 0 ["SET", "a", "2"]]

set_option maxRecDepth 100000 in
/-- In front of the rewrite recovery loads the snapshot of that checkpoint. -/
theorem rewrite_forgets_configured_manifest :
    let s := Server.after plainEnv {} checkpointedRun
    ((SnapshotStore.ofConfig plainEnv.config).loadForRecovery plainEnv 0 s.fs
        plainEnv.config.persistence.aofPath (((s.fs.read .aof).map List.length).getD 0)
        (freshStorage plainEnv)).1.loadedSnapshot = true ∧
      ∃ ctx aof, s.process = some ctx ∧ ctx.aof = some aof ∧
        ctx.storage.keyspace.visible 0 (ascii "a") = some ⟨ascii "2", none⟩ ∧
        ∃ status aof' storage' w,
          Aof.rewrite plainEnv .listed 0 aof ctx.storage ⟨s.fs, []⟩
            = .ok (status, aof', storage') w ∧
          status.isOk = true ∧
          ∀ later e size, ((SnapshotStore.ofConfig plainEnv.config).loadForRecovery plainEnv later w.fs
            plainEnv.config.persistence.aofPath size e).1.loadedSnapshot = false := by
  intro s
  have hstate : s.process.map
        (fun ctx => (ctx.aof.isSome, ctx.storage.keyspace.visible 0 (ascii "a")))
      = some (true, some ⟨ascii "2", none⟩) := by decide +kernel
  obtain ⟨ctx, hctx, hends⟩ := Option.map_eq_some_iff.mp hstate
  obtain ⟨haof, hvisible⟩ := Prod.mk.inj hends
  obtain ⟨aof, haof⟩ := Option.isSome_iff_exists.mp haof
  have hspec := Aof.spec_rewrite (w := ⟨s.fs, []⟩) .listed 0 aof ctx.storage
    (show plainEnv.config.persistence.aofEnabled = true from rfl) (by decide)
  obtain ⟨⟨status, aof', storage'⟩, w, hrun, -, -, hcalm, -⟩ :=
    (hspec.mono (fun _ _ hq => hq) fun _ hc => absurd rfl hc.2).exists_ok
  have hok := (hcalm rfl).2.2.1
  refine ⟨by decide +kernel, ctx, aof, hctx, haof, hvisible, status, aof', storage', w, hrun, hok, ?_⟩
  intro later e
  exact (rewrite_forgets_manifest_iff hrun hok later e).mpr fun hnil => nomatch hnil

theorem pathsApart_defaultManifest : PathsApart { manifestPath := [] } id 1 := by
  unfold PathsApart
  decide +kernel

/-- No manifest path is configured. -/
def defaultManifestEnv : Env :=
  { config := { storage := { maxMemoryBytes := 0, shards := 1 }, persistence := { manifestPath := [] } }
    hash := fun _ => 0
    lexicallyNormal := id
    parentPath := fun _ => []
    pid := 1
    apart := pathsApart_defaultManifest }

/-- A checkpoint, a write, and a rewrite; the new log is as long as the old one was at the
checkpoint. -/
def staleManifestRun : List Event :=
  checkpointedRun ++ [.calmRequest 0 ["BGREWRITEAOF"]]

set_option maxRecDepth 100000 in
/-- The snapshot is loaded through the manifest of the old log, and the only record of the new one
is skipped: the value before the last is back. -/
theorem stale_manifest_used :
    let s := Server.after defaultManifestEnv {} staleManifestRun
    (s.process.map fun ctx => ctx.storage.keyspace.visible 0 (ascii "a"))
        = some (some ⟨ascii "2", none⟩) ∧
      ((SnapshotStore.ofConfig defaultManifestEnv.config).loadForRecovery defaultManifestEnv 0 s.fs
        defaultManifestEnv.config.persistence.aofPath (((s.fs.read .aof).map List.length).getD 0)
        (freshStorage defaultManifestEnv)).1.loadedSnapshot = true ∧
      (recover defaultManifestEnv .listed 0 s.fs).1 = .ok ∧
      (recover defaultManifestEnv .listed 0 s.fs).2.1.storage.keyspace.visible 0 (ascii "a")
        = some ⟨ascii "1", none⟩ := by
  decide +kernel

/-! ## The descriptor of the old log -/

namespace Aof

/-- What `installRewrite` does in front of `reopen_locked`, and whether the new log is in place. -/
def installLog (config : PersistenceConfig) : FileProgram FileName Bool := do
  match ← renameFile .aofTmp .aof with
  | .error _ => return false
  | .ok () =>
    let _ ← touch
    removeIfSafe config.manifestPath .manifest
    return true

/-- What `Aof::rewrite` does in front of `reopen_locked`, and whether the new log is in place. -/
def replaceLog (env : Env) (order : IterationOrder) (now : TimePoint) (storage : StorageEngine) :
    FileProgram FileName Bool := do
  let config := env.config.persistence
  let parent := env.parentPath config.aofPath
  let status ← ensureParentDir parent fun reason =>
    ascii "failed to create directory " ++ parent ++ ascii ": " ++ reason
  if !status.isOk then return false
  match ← call fun fs => fs.openTruncate .aofTmp with
  | .error _ => return false
  | .ok tmpFd =>
    match ← writeRecords tmpFd ((order.arrange (storage.snapshot now).1).flatMap snapshotRecords) with
    | .error _ => return false
    | .ok () =>
      let status ← syncAndClose (rewriteTmpPath config.aofPath env.pid)
      if !status.isOk then return false
      installLog config

/-- The new log is in place after `p`, and the call that follows fails. -/
def FailsBehind (p : FileProgram FileName Bool) (w : World FileName) : Prop :=
  ∃ w₁ reason plan, p w = .ok true w₁ ∧ w₁.plan = .fail reason :: plan

/-- The call that fails is the one that opens the new log. -/
def ReopenFails (env : Env) (order : IterationOrder) (now : TimePoint) (storage : StorageEngine)
    (w : World FileName) : Prop :=
  FailsBehind (replaceLog env order now storage) w

/-- The process goes on with the log that it had. -/
structure GoesOn (aof aof' : Aof) (fs fs' : FileSystem FileName) : Prop where
  fd : aof'.fd = aof.fd
  size : aof'.currentSize = aof.currentSize
  keeps : Keeps [.aofTmp] fs fs'

/-- The new log is in place, and the process writes to the old one, which has no name. -/
structure Detached (aof aof' : Aof) (new : Bytes) (fs' : FileSystem FileName) : Prop where
  fd : aof'.fd = aof.fd
  orphan : ∀ i, aof.fd = some i → fs'.Orphan i
  log : fs'.read .aof = some new

/-- What an error of the program behind `p` can mean. -/
def ErrorCases (p : FileProgram FileName Bool) (new : Bytes) (aof aof' : Aof) (fs : FileSystem FileName)
    (w w' : World FileName) : Prop :=
  (¬ FailsBehind p w ∧ GoesOn aof aof' fs w'.fs) ∨ (FailsBehind p w ∧ Detached aof aof' new w'.fs)

section Errors

variable {env : Env} {order : IterationOrder} {now : TimePoint} {aof aof' : Aof} {fs : FileSystem FileName}
  {storage storage' : StorageEngine} {status : Status} {w w' w₁ : World FileName} {new : Bytes}
  {p : FileProgram FileName Bool}

/-- The calls that have been answered do not matter. -/
theorem ErrorCases.of_eq {q : FileProgram FileName Bool} (heq : p w = q w₁)
    (h : ErrorCases q new aof aof' fs w₁ w') : ErrorCases p new aof aof' fs w w' := by
  rw [ErrorCases, FailsBehind] at h ⊢
  rwa [heq]

/-- It has failed in front of the rename. -/
theorem GoesOn.errorCases (h : GoesOn aof aof' fs w'.fs) :
    ErrorCases (pure false) new aof aof' fs w w' := by
  refine .inl ⟨?_, h⟩
  rintro ⟨w₁, reason, plan, heq, -⟩
  cases heq

/-- The manifest is removed or not. -/
theorem fs_removeIfSafe {path : Bytes} {u : Unit} (hrun : removeIfSafe path .manifest w = .ok u w₁) :
    w₁.fs = w.fs.remove .manifest ∨ w₁.fs = w.fs := by
  rw [removeIfSafe] at hrun
  have hspec : Spec (if pathIsSafe path = true then discard (removeFile .manifest) else pure ()) w
      (fun _ w₂ => w₂.fs = w.fs.remove .manifest ∨ w₂.fs = w.fs) fun _ => True := by
    split_ifs
    · rw [spec_discard]
      exact spec_call (fun _ hfs _ => .inl hfs) (fun _ _ hfs _ => .inr hfs) fun _ _ _ => trivial
    · exact spec_pure.mpr (.inr rfl)
  exact hspec.of_ok hrun

/-- The last part of a rewrite. -/
theorem errorCases_installRewrite {config : PersistenceConfig} (hkeeps : Keeps [.aofTmp] fs w.fs)
    (hread : w.fs.read .aofTmp = some new) (hfd : ∀ i, aof.fd = some i → fs.dir .aof = some i)
    (hrun : installRewrite config aof w = .ok (status, aof') w') (herr : status.isOk = false) :
    ErrorCases (installLog config) new aof aof' fs w w' := by
  obtain ⟨renamed, w₁, hrename, hrun⟩ := bind_eq_ok.mp hrun
  refine .of_eq (bind_of_ok hrename) ?_
  cases renamed with
  | error reason =>
    obtain ⟨removed, w₂, hremove, hrun⟩ := bind_eq_ok.mp hrun
    cases hrun
    have hkeeps₁ : Keeps [.aofTmp] fs w₁.fs := by
      rw [call_eq_error hrename] at hkeeps
      exact hkeeps
    exact GoesOn.errorCases ⟨rfl, rfl, ((spec_removeTmp hkeeps₁).of_ok hremove).1⟩
  | ok u =>
    obtain ⟨touched, w₂, htouch, hrun⟩ := bind_eq_ok.mp hrun
    refine .of_eq (bind_of_ok htouch) ?_
    obtain ⟨removed, w₃, hremove, hrun⟩ := bind_eq_ok.mp hrun
    refine .of_eq (bind_of_ok hremove) ?_
    obtain ⟨⟨status₄, aof₄⟩, w₄, hreopen, hrun⟩ := bind_eq_ok.mp hrun
    obtain ⟨opened, w₅, hopen, hreopen⟩ := bind_eq_ok.mp hreopen
    have hfs₂ : w₂.fs = w.fs.rename .aofTmp .aof :=
      ((touch_idle w₁).of_ok htouch).1.trans (call_eq_ok hrename).1
    cases opened with
    | ok fd =>
      -- the size may not be known, but the log is open
      obtain ⟨size, w₆, -, hreopen⟩ := bind_eq_ok.mp hreopen
      cases size <;> (cases hreopen; cases hrun; cases herr)
    | error reason =>
      cases hreopen
      cases hrun
      have hplan := call_eq_error hopen
      have hfs₃ : w₃.fs = w'.fs := by rw [hplan]
      refine .inr ⟨⟨w₃, reason, w'.plan, rfl, by rw [hplan]⟩, rfl, fun i hi => ?_, ?_⟩
      · have hdst : w.fs.dir .aof = some i := by rw [hkeeps.dir (by decide), hfd i hi]
        obtain ⟨j, hsrc, -⟩ := Option.map_eq_some_iff.mp hread
        have horphan : w₂.fs.Orphan i := hfs₂ ▸ Orphan.of_rename hsrc hdst (by decide)
        rw [← hfs₃]
        rcases fs_removeIfSafe hremove with hfs | hfs
        · exact hfs ▸ horphan.remove _
        · exact hfs ▸ horphan
      · have hlog : w₂.fs.read .aof = some new := by rw [hfs₂, read_rename_dst _ hread]
        rw [← hfs₃]
        rcases fs_removeIfSafe hremove with hfs | hfs
        · rw [hfs, w₂.fs.read_remove_of_ne (by decide), hlog]
        · rw [hfs, hlog]

/-- **A rewrite that returns an error** has failed in front of the rename, or at the very end. -/
theorem errorCases_rewrite (hen : env.config.persistence.aofEnabled = true)
    (hsafe : pathIsSafe env.config.persistence.aofPath = true)
    (hfd : ∀ i, aof.fd = some i → w.fs.dir .aof = some i)
    (hrun : rewrite env order now aof storage w = .ok (status, aof', storage') w')
    (herr : status.isOk = false) :
    ErrorCases (replaceLog env order now storage) (snapshotText order now storage) aof aof' w.fs w w' := by
  simp only [rewrite, hen, hsafe, Bool.not_true, Bool.false_eq_true, if_false] at hrun
  obtain ⟨status₁, w₁, hdir, hrun⟩ := bind_eq_ok.mp hrun
  have hfs₁ : w₁.fs = w.fs := ((ensureParentDir_idle _ _ w).of_ok hdir).1
  have hkeeps₁ : Keeps [.aofTmp] w.fs w₁.fs := hfs₁ ▸ Keeps.refl _ _
  refine .of_eq (bind_of_ok hdir) ?_
  cases hok₁ : status₁.isOk with
  | false =>
    simp only [hok₁, Bool.not_false, if_true] at hrun ⊢
    cases hrun
    exact GoesOn.errorCases ⟨rfl, rfl, hkeeps₁⟩
  | true =>
    simp only [hok₁, Bool.not_true, Bool.false_eq_true, if_false] at hrun ⊢
    obtain ⟨opened, w₂, hopen, hrun⟩ := bind_eq_ok.mp hrun
    refine .of_eq (bind_of_ok hopen) ?_
    cases opened with
    | error reason =>
      cases hrun
      rw [call_eq_error hopen] at hkeeps₁
      exact GoesOn.errorCases ⟨rfl, rfl, hkeeps₁⟩
    | ok fd =>
      obtain ⟨hfs₂, rfl⟩ := call_eq_ok hopen
      have hkeeps₂ : Keeps [.aofTmp] w.fs w₂.fs :=
        hkeeps₁.trans (hfs₂ ▸ Keeps.openTruncate w₁.fs .aofTmp)
      have hdir₂ : w₂.fs.dir .aofTmp = some (w₁.fs.openTruncate .aofTmp).2 := by
        rw [hfs₂]
        exact w₁.fs.dir_openTruncate_self .aofTmp
      have hread₂ : w₂.fs.read .aofTmp = some [] := by rw [hfs₂, read_openTruncate_self]
      obtain ⟨written, w₃, hwrite, hrun⟩ := bind_eq_ok.mp hrun
      refine .of_eq (bind_of_ok hwrite) ?_
      obtain ⟨hkeeps₃, -, hread₃⟩ := (spec_writeRecords _ hkeeps₂ hdir₂ hread₂).of_ok hwrite
      cases written with
      | error reason =>
        obtain ⟨removed, w₄, hremove, hrun⟩ := bind_eq_ok.mp hrun
        cases hrun
        exact GoesOn.errorCases ⟨rfl, rfl, ((spec_removeTmp hkeeps₃).of_ok hremove).1⟩
      | ok u =>
        obtain ⟨status₄, w₄, hsync, hrun⟩ := bind_eq_ok.mp hrun
        refine .of_eq (bind_of_ok hsync) ?_
        have hfs₄ : w₄.fs = w₃.fs := ((syncAndClose_idle _ w₃).of_ok hsync).1
        have hkeeps₄ : Keeps [.aofTmp] w.fs w₄.fs := hfs₄ ▸ hkeeps₃
        cases hok₄ : status₄.isOk with
        | false =>
          simp only [hok₄, Bool.not_false, if_true] at hrun ⊢
          obtain ⟨removed, w₅, hremove, hrun⟩ := bind_eq_ok.mp hrun
          cases hrun
          exact GoesOn.errorCases ⟨rfl, rfl, ((spec_removeTmp hkeeps₄).of_ok hremove).1⟩
        | true =>
          simp only [hok₄, Bool.not_true, Bool.false_eq_true, if_false] at hrun ⊢
          obtain ⟨⟨status₅, aof₅⟩, w₅, hinstall, hrun⟩ := bind_eq_ok.mp hrun
          cases hrun
          refine errorCases_installRewrite hkeeps₄ ?_ hfd hinstall herr
          rw [hfs₄, hread₃ rfl]
          rfl

end Errors

/-! ### Appending behind a failed rewrite -/

section Appending

variable {config : PersistenceConfig} {aof : Aof} {fs : FileSystem FileName} {log : Bytes}

/-- To the log. -/
theorem Attached.appendAll (hen : config.aofEnabled = true) (records : List (List Bytes))
    (h : aof.Attached fs log) : ∃ aof' fs',
      appendAll config aof records ⟨fs, []⟩ = .ok (true, aof') ⟨fs', []⟩ ∧
      aof'.Attached fs' (log ++ records.flatMap encodeCommand) := by
  obtain ⟨⟨ok, aof'⟩, ⟨fs', plan⟩, hrun, rfl, rfl, hatt⟩ :=
    (spec_appendAll (w := ⟨fs, []⟩) hen records rfl h).exists_ok
  exact ⟨aof', fs', hrun, hatt⟩

/-- To a file without a name. -/
theorem append_orphan {i : ℕ} (hen : config.aofEnabled = true) (hfd : aof.fd = some i)
    (h : fs.Orphan i) (record : List Bytes) : ∃ status aof' fs',
      aof.append config record ⟨fs, []⟩ = .ok (status, aof') ⟨fs', []⟩ ∧ status.isOk = true ∧
      aof'.fd = some i ∧ fs'.Orphan i ∧ fs'.read .aof = fs.read .aof := by
  have hwrite : writeAll i (encodeCommand record) ⟨fs, []⟩
      = .ok (.ok ()) ⟨fs.append i (encodeCommand record), []⟩ := by
    rw [writeAll]
    cases encodeCommand record with
    | nil => simp [writeLoop]
    | cons b bytes => rfl
  have hbytes : aof.writeBytesLocked (encodeCommand record) ⟨fs, []⟩
      = .ok (.ok, { aof with currentSize := aof.currentSize + (encodeCommand record).length })
        ⟨fs.append i (encodeCommand record), []⟩ := by
    simp only [writeBytesLocked, hfd]
    rw [bind_of_ok hwrite]
    rfl
  have henabled : aof.enabled config = true := by simp [Aof.enabled, hen, hfd]
  refine ⟨.ok, { aof with
    currentSize := aof.currentSize + (encodeCommand record).length, lastWriteOk := true },
    fs.append i (encodeCommand record), ?_, rfl, hfd, h, h.read_append _ _⟩
  simp only [Aof.append, henabled, Bool.not_true, Bool.false_eq_true, if_false]
  rw [bind_of_ok hbytes]
  simp only [Status.isOk_ok, Bool.not_true, Bool.false_eq_true, if_false]
  split_ifs <;> rfl

/-- All of them go to a file without a name. -/
theorem appendAll_orphan {i : ℕ} (hen : config.aofEnabled = true) (records : List (List Bytes))
    (hfd : aof.fd = some i) (h : fs.Orphan i) : ∃ aof' fs',
      appendAll config aof records ⟨fs, []⟩ = .ok (true, aof') ⟨fs', []⟩ ∧
      fs'.read .aof = fs.read .aof := by
  induction records generalizing aof fs with
  | nil => exact ⟨aof, fs, rfl, rfl⟩
  | cons record records ih =>
    obtain ⟨status₁, aof₁, fs₁, hrun₁, hok₁, hfd₁, horphan₁, hread₁⟩ := append_orphan hen hfd h record
    obtain ⟨aof', fs', hrun, hread⟩ := ih hfd₁ horphan₁
    refine ⟨aof', fs', ?_, hread.trans hread₁⟩
    rw [Aof.appendAll, bind_of_ok hrun₁]
    simp only [bind_of_ok hrun, hok₁]
    rfl

end Appending

end Aof

/-- The log is open, it holds these records, and they replay to what is stored, without deadlines.
-/
structure LogHolds (env : Env) (aof : Aof) (storage : StorageEngine) (fs : FileSystem FileName)
    (records : List (List Bytes)) : Prop where
  enabled : env.config.persistence.aofEnabled = true
  safe : pathIsSafe env.config.persistence.aofPath = true
  attached : aof.Attached fs (records.flatMap encodeCommand)
  wf : storage.WF
  setup : storage.setup = (freshStorage env).setup
  untimed : storage.keyspace.Untimed
  within : ∀ record ∈ records, WithinLimits (parserOptionsFromConfig env.config.protocol) record
  replays : Replays env records Keyspace.none storage.keyspace

/-- The commands are appended without a failure, and then the file at the path of the log replays
to `K`. -/
def AppendsReplayTo (env : Env) (aof : Aof) (fs : FileSystem FileName)
    (commands : List (List Bytes)) (K : Keyspace) : Prop :=
  ∃ aof' fs', aof.appendAll env.config.persistence commands ⟨fs, []⟩ = .ok (true, aof') ⟨fs', []⟩ ∧
    ∀ order T, (replayLog env order T fs').1.status = .ok ∧
      (replayLog env order T fs').2.1.storage.keyspace = K

/-- The file holds these records, and they replay to `K`. -/
theorem replayLog_keyspace {env : Env} {fs : FileSystem FileName} {records : List (List Bytes)}
    {K : Keyspace} (hsafe : pathIsSafe env.config.persistence.aofPath = true)
    (hlog : fs.read .aof = some (records.flatMap encodeCommand))
    (hlim : ∀ record ∈ records, WithinLimits (parserOptionsFromConfig env.config.protocol) record)
    (hfit : FileFits env (records.flatMap encodeCommand))
    (hreplays : Replays env records Keyspace.none K) (order : IterationOrder) (T : TimePoint) :
    (replayLog env order T fs).1.status = .ok ∧
      (replayLog env order T fs).2.1.storage.keyspace = K := by
  obtain ⟨P, hreplay, hP⟩ :=
    Recoverable.replayLog_of_replays hsafe hlog hlim hfit hreplays order T
  rw [hreplay]
  exact ⟨rfl, hP.keyspace⟩

/-- **A rewrite that returns an error loses nothing**, unless what failed is the opening of the new
log; then what the commands behind it do is lost. -/
theorem failed_rewrite_loses_nothing_iff {env : Env} {order : IterationOrder} {now : TimePoint}
    {aof aof' : Aof} {storage storage' : StorageEngine} {fs : FileSystem FileName}
    {plan : List CallOutcome} {status : Status} {w : World FileName} {records commands : List (List Bytes)}
    {K : Keyspace} (h : LogHolds env aof storage fs records)
    (hrun : Aof.rewrite env order now aof storage ⟨fs, plan⟩ = .ok (status, aof', storage') w)
    (herr : status.isOk = false) (hcommands : Replays env commands storage.keyspace K)
    (hwithin : ∀ record ∈ commands, WithinLimits (parserOptionsFromConfig env.config.protocol) record)
    (helements : 3 ≤ env.config.protocol.maxArrayElements)
    (hfit : FileFits env ((records ++ commands).flatMap encodeCommand))
    (hfit' : FileFits env (snapshotText order now storage)) :
    AppendsReplayTo env aof' w.fs commands K ↔
      ¬ Aof.ReopenFails env order now storage ⟨fs, plan⟩ ∨ K = storage.keyspace := by
  obtain ⟨i, hfd, hdir⟩ := h.attached.fd
  have hfds : ∀ j, aof.fd = some j → fs.dir .aof = some j := fun j hj => by
    rw [hfd] at hj
    exact hj ▸ hdir
  rcases Aof.errorCases_rewrite h.enabled h.safe hfds hrun herr with
    ⟨hnot, hgoes⟩ | ⟨hfails, hdetached⟩
  · -- the log is as it was, and so is the descriptor
    refine iff_of_true ?_ (.inl hnot)
    have hatt : aof'.Attached w.fs (records.flatMap encodeCommand) := by
      refine ⟨⟨i, hgoes.fd.trans hfd, ?_⟩, ?_, hgoes.size.trans h.attached.size⟩
      · rw [hgoes.keeps.dir (by decide), hdir]
      · rw [hgoes.keeps.read (by decide), h.attached.contents]
    obtain ⟨aof'', fs', hrun', hatt'⟩ := hatt.appendAll h.enabled commands
    refine ⟨aof'', fs', hrun', ?_⟩
    refine replayLog_keyspace h.safe ?_ ?_ hfit (h.replays.append hcommands)
    · rw [hatt'.contents, List.flatMap_append]
    · intro record hrecord
      rcases List.mem_append.mp hrecord with hr | hr
      · exact h.within record hr
      · exact hwithin record hr
  · -- the file at the path of the log holds the live map, and stays as it is
    obtain ⟨aof'', fs', hrun', hread⟩ :=
      Aof.appendAll_orphan h.enabled commands (hdetached.fd.trans hfd) (hdetached.orphan i hfd)
    have hlive : ∀ order' T, (replayLog env order' T fs').1.status = .ok ∧
        (replayLog env order' T fs').2.1.storage.keyspace = storage.keyspace := by
      refine replayLog_keyspace h.safe ?_ ?_ hfit' (.of_snapshot h.wf h.setup h.untimed order now)
      · rw [hread, hdetached.log]
        rfl
      · exact within_snapshotRecords h.wf h.setup h.untimed helements
          (fun _ _ hx => h.replays.keys h.within hx) hfit'
    constructor
    · rintro ⟨aof₂, fs₂, hrun₂, hreplay⟩
      rw [hrun'] at hrun₂
      cases hrun₂
      exact .inr ((hreplay .listed 0).2.symm.trans (hlive .listed 0).2)
    · rintro (hnot | rfl)
      · exact absurd hfails hnot
      · exact ⟨aof'', fs', hrun', hlive⟩

/-- A log with the record of one key, and what it replays to. -/
def keptFiles : FileSystem FileName :=
  openedFiles.append 0 (encodeCommand (["SET", "k", "5"].map ascii))

def keptStorage : StorageEngine :=
  ((freshStorage plainEnv).set (ascii "k") (ascii "5") none .always 0).2

theorem logHolds_kept : LogHolds plainEnv { fd := some 0, currentSize := 27 } keptStorage keptFiles
    [["SET", "k", "5"].map ascii] := by
  have huntimed : (freshStorage plainEnv).keyspace.Untimed := by
    intro k x hx
    rw [keyspace_freshStorage] at hx
    cases hx
  have hlogs : Commands.Logs 0 (freshStorage plainEnv) .set (["SET", "k", "5"].map ascii) _ :=
    .set rfl (by decide +kernel)
  have hwrites := hlogs.writes (wf_freshStorage _)
  obtain ⟨record, hrecord, hreplays⟩ :=
    Replays.of_logs (wf_freshStorage _) rfl huntimed (by decide) (by decide) hlogs
  obtain rfl : ["SET", "k", "5"].map ascii = record := Option.some.inj hrecord
  rw [keyspace_freshStorage] at hreplays
  exact ⟨rfl, by decide, ⟨⟨0, rfl, rfl⟩, by decide +kernel, by decide +kernel⟩, hwrites.wf, hwrites.setup,
    huntimed.writes (by decide) hwrites, by decide, hreplays⟩

/-- A rewrite that cannot create its file, and a command behind it. -/
theorem failed_rewrite_loses_nothing_incr :
    ∃ status aof' storage' w K, Aof.rewrite plainEnv .listed 0 { fd := some 0, currentSize := 27 }
        keptStorage ⟨keptFiles, [.fail (ascii "no space")]⟩ = .ok (status, aof', storage') w ∧
      status.isOk = false ∧ K (ascii "k") = some ⟨ascii "6", none⟩ ∧
      AppendsReplayTo plainEnv aof' w.fs [["INCR", "k"].map ascii] K := by
  have hholds := logHolds_kept
  have hlogs : Commands.Logs 0 keptStorage .incr (["INCR", "k"].map ascii) _ :=
    .incr (by decide +kernel)
  obtain ⟨record, hrecord, hreplays⟩ :=
    Replays.of_logs hholds.wf hholds.setup hholds.untimed (by decide) (by decide) hlogs
  obtain rfl : ["INCR", "k"].map ascii = record := Option.some.inj hrecord
  have hnot : ¬ Aof.ReopenFails plainEnv .listed 0 keptStorage
      ⟨keptFiles, [.fail (ascii "no space")]⟩ := by
    rintro ⟨w₁, reason, plan, hrun, -⟩
    cases hrun
  refine ⟨_, _, _, _, _, rfl, rfl, ?_, (failed_rewrite_loses_nothing_iff hholds rfl rfl hreplays
    (by decide) (by decide) (by decide +kernel) (by decide +kernel)).mpr (.inl hnot)⟩
  decide +kernel

/-- The opening of the new log is the call that fails. -/
def lostLogRun : List Event :=
  [.calmStart 0, .calmRequest 0 ["SET", "a", "1"],
    .request 0 .listed [.ok, .ok, .ok, .ok, .ok, .ok, .ok, .fail (ascii "too many open files")]
      [ascii "BGREWRITEAOF"],
    .calmRequest 0 ["SET", "a", "2"]]

set_option maxRecDepth 100000 in
/-- The rewrite answers with an error, the write behind it with `OK`; that write is gone after a
restart. -/
theorem acknowledged_write_lost :
    let s := Server.after plainEnv {} (lostLogRun.take 2)
    let s₁ := (s.step plainEnv lostLogRun[2]).2
    ((s.step plainEnv lostLogRun[2]).1.map CommandResult.isError) = some true ∧
      (s₁.step plainEnv lostLogRun[3]).1 = some Commands.ok ∧
      ((s₁.step plainEnv lostLogRun[3]).2.process.map fun ctx =>
          ctx.storage.keyspace.visible 0 (ascii "a")) = some (some ⟨ascii "2", none⟩) ∧
      (replayLog plainEnv .listed 0 (s₁.step plainEnv lostLogRun[3]).2.fs).1.status = .ok ∧
      (replayLog plainEnv .listed 0
        (s₁.step plainEnv lostLogRun[3]).2.fs).2.1.storage.keyspace.visible 0 (ascii "a")
          = some ⟨ascii "1", none⟩ := by
  decide +kernel

end VeloxDb
