import VeloxDb.Persistence.Snapshot

/-!
# What the file programs leave behind

A `Spec` theorem for each program of the log and of the snapshots, for every plan of the kernel. In
a calm world they succeed. A rewrite of the log goes through three states of the files: the old log,
the new log with the manifest still there, and the new log without it. `SAVE` goes through three as
well: both files old, the snapshot new and the manifest old, both new.
-/

namespace VeloxDb

open Decimal Util Resp FileProgram FileSystem

/-! ## Calls that change nothing -/

/-- A call without an effect changes no file. -/
theorem touch_idle : Idle (· = .ok ()) touch := idle_call

/-- Creating directories changes no file. -/
theorem ensureParentDir_idle (parent : Bytes) (message : Bytes → Bytes) :
    Idle (fun status => status.isOk = true) (ensureParentDir parent message) := by
  unfold ensureParentDir
  split_ifs
  · exact idle_pure rfl
  · refine touch_idle.bind fun r w => ?_
    cases r with
    | ok u => exact ⟨rfl, fun hc => ⟨hc, fun _ => rfl⟩⟩
    | error reason => exact ⟨rfl, fun hc => ⟨hc, fun h => nomatch h⟩⟩

/-- `fsync` changes no file. -/
theorem syncFd_idle (target : Bytes) : Idle (fun status => status.isOk = true) (syncFd target) := by
  refine touch_idle.bind fun r w => ?_
  cases r with
  | ok u => exact ⟨rfl, fun hc => ⟨hc, fun _ => rfl⟩⟩
  | error reason => exact ⟨rfl, fun hc => ⟨hc, fun h => nomatch h⟩⟩

/-- `close` changes no file. -/
theorem closeFd_idle (target : Bytes) : Idle (fun status => status.isOk = true) (closeFd target) := by
  refine touch_idle.bind fun r w => ?_
  cases r with
  | ok u => exact ⟨rfl, fun hc => ⟨hc, fun _ => rfl⟩⟩
  | error reason => exact ⟨rfl, fun hc => ⟨hc, fun h => nomatch h⟩⟩

/-- `fsync` and `close` change no file. -/
theorem syncAndClose_idle (target : Bytes) :
    Idle (fun status => status.isOk = true) (syncAndClose target) := by
  refine (syncFd_idle target).bind fun synced w => ?_
  refine (closeFd_idle target).spec_bind (fun closed w' hfs hcalm => ?_)
    fun w' hfs hcalm => ⟨hfs, hcalm⟩
  refine spec_pure.mpr ⟨hfs, fun hc => ⟨(hcalm hc).1, fun hs => ?_⟩⟩
  simp [hs, (hcalm hc).2]

/-- Syncing the log changes no file. -/
theorem sync_idle (config : PersistenceConfig) (aof : Aof) :
    Idle (fun status => status.isOk = true) (aof.sync config) := by
  unfold Aof.sync
  split_ifs
  · exact idle_pure rfl
  · exact syncFd_idle _

/-! ## Temporary files

New contents are first written to a temporary file. `Keeps [tmp] fs w.fs` says that nothing else has
changed since `fs`. -/

section Temporary

variable {fs : FileSystem FileName} {tmp : FileName} {β : Type} {w : World FileName}

/-- A temporary file is opened and cut, or it is not. -/
theorem spec_openTmp {f : Except Bytes ℕ → FileProgram FileName β} {R : β → World FileName → Prop}
    {C : World FileName → Prop} (h : Keeps [tmp] fs w.fs)
    (hok : ∀ fd w', Keeps [tmp] fs w'.fs → w'.fs.dir tmp = some fd → w'.fs.read tmp = some [] →
      (w.Calm → w'.Calm) → Spec (f (.ok fd)) w' R C)
    (hfail : ∀ reason w', Keeps [tmp] fs w'.fs → ¬ w.Calm → Spec (f (.error reason)) w' R C)
    (hcrash : ∀ w', Keeps [tmp] fs w'.fs → ¬ w.Calm → C w') :
    Spec (call (fun fs => fs.openTruncate tmp) >>= f) w R C := by
  rw [spec_bind]
  refine spec_call (fun w' hfs hcalm => ?_) (fun reason w' hfs hcalm => hfail reason w' (hfs ▸ h) hcalm)
    (fun w' hfs hcalm => hcrash w' (hfs ▸ h) hcalm)
  refine hok _ w' (h.trans (hfs ▸ Keeps.openTruncate w.fs tmp)) ?_ (by rw [hfs, read_openTruncate_self])
    hcalm
  rw [hfs]
  exact w.fs.dir_openTruncate_self tmp

/-- Records written one after another. -/
theorem spec_writeRecords {fd : ℕ} (records : List (List Bytes)) (h : Keeps [tmp] fs w.fs)
    (hdir : w.fs.dir tmp = some fd) {old : Bytes} (hread : w.fs.read tmp = some old) :
    Spec (writeRecords fd records) w
      (fun r w' => Keeps [tmp] fs w'.fs ∧ (w.Calm → w'.Calm ∧ r = .ok ()) ∧
        (r = .ok () → w'.fs.read tmp = some (old ++ records.flatMap encodeCommand)))
      (fun w' => Keeps [tmp] fs w'.fs ∧ ¬ w.Calm) := by
  induction records generalizing w old with
  | nil => exact spec_pure.mpr ⟨h, fun hc => ⟨hc, rfl⟩, fun _ => by simp [hread]⟩
  | cons record records ih =>
    have hkeeps := fun bytes => h.trans (Keeps.append hdir bytes)
    simp only [writeRecords]
    rw [spec_bind]
    refine spec_writeAll (fun w₁ hfs hcalm => ?_)
      (fun reason written w₁ hfs _ hcalm => spec_pure.mpr
        ⟨hfs ▸ hkeeps written, fun hc => absurd hc hcalm, fun hr => nomatch hr⟩)
      (fun written w₁ hfs _ hcalm => ⟨hfs ▸ hkeeps written, hcalm⟩)
    have hread₁ : w₁.fs.read tmp = some (old ++ encodeCommand record) := by
      rw [hfs]
      exact w.fs.read_append_self hdir hread
    refine (ih (hfs ▸ hkeeps _) (by rw [hfs, dir_append, hdir]) hread₁).mono (fun r w₂ h₂ => ?_)
      fun w₂ h₂ => ⟨h₂.1, fun hc => h₂.2 (hcalm hc)⟩
    refine ⟨h₂.1, fun hc => h₂.2.1 (hcalm hc), fun hr => ?_⟩
    rw [h₂.2.2 hr, List.flatMap_cons, List.append_assoc]

/-- Records written to a stream one after another. -/
theorem spec_streamRecords {fd : ℕ} (records : List (List Bytes)) (h : Keeps [tmp] fs w.fs)
    (hdir : w.fs.dir tmp = some fd) {old : Bytes} (hread : w.fs.read tmp = some old) :
    Spec (streamRecords fd records) w
      (fun r w' => Keeps [tmp] fs w'.fs ∧ (w.Calm → w'.Calm ∧ r = true) ∧
        (r = true → w'.fs.read tmp = some (old ++ records.flatMap encodeCommand)))
      (fun w' => Keeps [tmp] fs w'.fs ∧ ¬ w.Calm) := by
  induction records generalizing w old with
  | nil => exact spec_pure.mpr ⟨h, fun hc => ⟨hc, rfl⟩, fun _ => by simp [hread]⟩
  | cons record records ih =>
    have hkeeps := fun bytes => h.trans (Keeps.append hdir bytes)
    simp only [streamRecords]
    rw [spec_bind]
    refine spec_streamWrite (fun w₁ hfs hcalm => ?_)
      (fun written w₁ hfs hcalm => spec_pure.mpr
        ⟨hfs ▸ hkeeps written, fun hc => absurd hc hcalm, fun hr => nomatch hr⟩)
      (fun w₁ hfs hcalm => ⟨hfs ▸ h, hcalm⟩)
    have hread₁ : w₁.fs.read tmp = some (old ++ encodeCommand record) := by
      rw [hfs]
      exact w.fs.read_append_self hdir hread
    refine (ih (hfs ▸ hkeeps _) (by rw [hfs, dir_append, hdir]) hread₁).mono (fun r w₂ h₂ => ?_)
      fun w₂ h₂ => ⟨h₂.1, fun hc => h₂.2 (hcalm hc)⟩
    refine ⟨h₂.1, fun hc => h₂.2.1 (hcalm hc), fun hr => ?_⟩
    rw [h₂.2.2 hr, List.flatMap_cons, List.append_assoc]

/-- Removing a temporary file leaves the others alone. -/
theorem spec_removeTmp (h : Keeps [tmp] fs w.fs) :
    Spec (removeFile tmp) w (fun _ w' => Keeps [tmp] fs w'.fs ∧ (w.Calm → w'.Calm))
      (fun w' => Keeps [tmp] fs w'.fs ∧ ¬ w.Calm) :=
  spec_call (fun _ hfs hcalm => ⟨hfs ▸ h.trans (Keeps.remove _ _), hcalm⟩)
    (fun _ _ hfs hcalm => ⟨hfs ▸ h, fun hc => absurd hc hcalm⟩) (fun _ hfs hcalm => ⟨hfs ▸ h, hcalm⟩)

end Temporary

/-! ## The log -/

/-- The descriptor is that of the file at the path of the log, which holds `log`. -/
structure Aof.Attached (aof : Aof) (fs : FileSystem FileName) (log : Bytes) : Prop where
  fd : ∃ i, aof.fd = some i ∧ fs.dir .aof = some i
  contents : fs.read .aof = some log
  size : aof.currentSize = log.length

namespace Aof

variable {aof : Aof} {fs fs' : FileSystem FileName} {log : Bytes} {config : PersistenceConfig}

/-- A log that is open is enabled if the settings say so. -/
theorem Attached.enabled (h : aof.Attached fs log) (hen : config.aofEnabled = true) :
    aof.enabled config = true := by
  obtain ⟨i, hfd, -⟩ := h.fd
  simp [Aof.enabled, hen, hfd]

/-- Only the file of the log matters. -/
theorem Attached.keeps (h : aof.Attached fs log) {changed : List FileName}
    (hk : Keeps changed fs fs') (haof : FileName.aof ∉ changed) : aof.Attached fs' log :=
  ⟨by rw [hk.dir haof]; exact h.fd, by rw [hk.read haof]; exact h.contents, h.size⟩

/-- What is appended is behind the log, and the other files stay. -/
theorem Attached.append (h : aof.Attached fs log) {i : ℕ} (hfd : aof.fd = some i) (bytes : Bytes) :
    Keeps [.aof] fs (fs.append i bytes) ∧
      { aof with currentSize := aof.currentSize + bytes.length }.Attached (fs.append i bytes)
        (log ++ bytes) := by
  obtain ⟨j, hj, hdir⟩ := h.fd
  obtain rfl : i = j := by rw [hfd] at hj; exact Option.some.inj hj
  exact ⟨Keeps.append hdir bytes, ⟨i, hfd, hdir⟩, fs.read_append_self hdir h.contents,
    by simp [h.size]⟩

/-- Bytes are written behind the log, all of them or a first part. -/
theorem spec_writeBytesLocked {w : World FileName} (h : aof.Attached w.fs log) (bytes : Bytes) :
    Spec (aof.writeBytesLocked bytes) w
      (fun r w' => Keeps [.aof] w.fs w'.fs ∧ (w.Calm → w'.Calm ∧ r.1.isOk = true) ∧
        (r.1.isOk = true → r.2.Attached w'.fs (log ++ bytes)))
      (fun w' => Keeps [.aof] w.fs w'.fs ∧ ¬ w.Calm) := by
  obtain ⟨i, hfd, hdir⟩ := h.fd
  simp only [writeBytesLocked, hfd]
  rw [spec_bind]
  refine spec_writeAll (fun w' hfs hcalm => ?_) (fun reason written w' hfs _ hcalm => ?_)
    (fun written w' hfs _ hcalm => ⟨hfs ▸ Keeps.append hdir written, hcalm⟩)
  · obtain ⟨hkeeps, hatt⟩ := h.append hfd bytes
    rw [← hfs] at hkeeps hatt
    rw [hfd] at hatt
    exact spec_pure.mpr ⟨hkeeps, fun hc => ⟨hcalm hc, rfl⟩, fun _ => hatt⟩
  · exact spec_pure.mpr ⟨hfs ▸ Keeps.append hdir written, fun hc => absurd hc hcalm,
      fun hok => nomatch hok⟩

/-- `append` writes the record behind the log. -/
theorem spec_append {w : World FileName} (h : aof.Attached w.fs log) (hen : config.aofEnabled = true)
    (args : List Bytes) :
    Spec (aof.append config args) w
      (fun r w' => Keeps [.aof] w.fs w'.fs ∧ (w.Calm → w'.Calm ∧ r.1.isOk = true) ∧
        (r.1.isOk = true → r.2.Attached w'.fs (log ++ encodeCommand args)))
      (fun w' => Keeps [.aof] w.fs w'.fs ∧ ¬ w.Calm) := by
  simp only [Aof.append, h.enabled hen, Bool.not_true, Bool.false_eq_true, if_false]
  rw [spec_bind]
  refine (spec_writeBytesLocked h (encodeCommand args)).mono ?_ fun w' hw => hw
  rintro ⟨status, aof₁⟩ w₁ ⟨hkeeps, hcalm, hatt⟩
  cases hok : status.isOk with
  | false =>
    simp only [hok, Bool.false_eq_true, and_false, imp_false] at hcalm
    exact spec_pure.mpr ⟨hkeeps, fun hc => absurd hc hcalm, by simp [hok]⟩
  | true =>
    -- the flags do not matter for what the log holds
    have hatt₁ : ∀ {flag error}, { aof₁ with lastWriteOk := flag, lastError := error }.Attached w₁.fs
        (log ++ encodeCommand args) := ⟨(hatt hok).fd, (hatt hok).contents, (hatt hok).size⟩
    simp only [Bool.not_true, Bool.false_eq_true, if_false]
    split_ifs
    · refine touch_idle.spec_bind (fun r w₂ hfs hcalm₂ => ?_)
        fun w₂ hfs hcalm₂ => ⟨hfs ▸ hkeeps, fun hc => hcalm₂ (hcalm hc).1⟩
      cases r with
      | ok u =>
        refine spec_pure.mpr ⟨hfs ▸ hkeeps, fun hc => ⟨(hcalm₂ (hcalm hc).1).1, rfl⟩, fun _ => ?_⟩
        rw [hfs]
        exact hatt₁
      | error reason =>
        exact spec_pure.mpr ⟨hfs ▸ hkeeps, fun hc => absurd (hcalm₂ (hcalm hc).1).2 (by simp),
          fun hno => nomatch hno⟩
    · exact spec_pure.mpr ⟨hkeeps, fun hc => ⟨(hcalm hc).1, rfl⟩, fun _ => hatt₁⟩

/-- `Aof::append` of one record after the other, as a server calls it: it goes on behind one that
fails. The result says whether all have succeeded. -/
def appendAll (config : PersistenceConfig) : Aof → List (List Bytes) → FileProgram FileName (Bool × Aof)
  | aof, [] => return (true, aof)
  | aof, record :: records => do
    let (status, aof) ← aof.append config record
    let (ok, aof) ← appendAll config aof records
    return (status.isOk && ok, aof)

/-- In a calm world all records end up behind the log. -/
theorem spec_appendAll (hen : config.aofEnabled = true) (records : List (List Bytes)) {aof : Aof}
    {log : Bytes} {w : World FileName} (hw : w.Calm) (h : aof.Attached w.fs log) :
    Spec (appendAll config aof records) w
      (fun r w' => w'.Calm ∧ r.1 = true ∧ r.2.Attached w'.fs (log ++ records.flatMap encodeCommand))
      fun _ => False := by
  induction records generalizing aof log w with
  | nil => exact spec_pure.mpr ⟨hw, rfl, by simpa using h⟩
  | cons record records ih =>
    rw [appendAll, spec_bind]
    refine (spec_append h hen record).mono (fun r w₁ h₁ => ?_) fun w₁ h₁ => h₁.2 hw
    obtain ⟨-, hcalm, hatt⟩ := h₁
    obtain ⟨hw₁, hok⟩ := hcalm hw
    rw [spec_bind]
    refine (ih hw₁ (hatt hok)).mono (fun r₂ w₂ h₂ => spec_pure.mpr ?_) fun _ h₂ => h₂
    obtain ⟨hw₂, hok₂, hatt₂⟩ := h₂
    exact ⟨hw₂, by rw [hok, hok₂, Bool.and_self], by simpa using hatt₂⟩

/-- (Re)opening the log attaches to the file at its path. -/
theorem spec_reopenLocked {w : World FileName} (aof : Aof) (path : Bytes) :
    Spec (aof.reopenLocked path) w
      (fun r w' => Keeps [.aof] w.fs w'.fs ∧
        (w.Calm → w'.Calm ∧ r.1.isOk = true ∧ r.2.Attached w'.fs ((w.fs.read .aof).getD [])) ∧
        (w'.fs.read .aof = w.fs.read .aof ∨ w'.fs.read .aof = some ((w.fs.read .aof).getD [])))
      (fun w' => Keeps [.aof] w.fs w'.fs ∧ ¬ w.Calm ∧
        (w'.fs.read .aof = w.fs.read .aof ∨ w'.fs.read .aof = some ((w.fs.read .aof).getD []))) := by
  simp only [reopenLocked]
  rw [spec_bind]
  refine spec_call (fun w₁ hfs hcalm => ?_)
    (fun reason w₁ hfs hcalm => spec_pure.mpr ⟨hfs ▸ Keeps.refl _ _, fun hc => absurd hc hcalm,
      .inl (by rw [hfs])⟩)
    (fun w₁ hfs hcalm => ⟨hfs ▸ Keeps.refl _ _, hcalm, .inl (by rw [hfs])⟩)
  have hkeeps : Keeps [.aof] w.fs w₁.fs := hfs ▸ Keeps.openAppend _ _
  have hread : w₁.fs.read .aof = some ((w.fs.read .aof).getD []) := by
    rw [hfs]
    exact w.fs.read_create_self .aof
  have hdir : w₁.fs.dir .aof = some (w.fs.openAppend .aof).2 := by
    rw [hfs]
    exact w.fs.dir_create_self .aof
  rw [spec_bind]
  refine spec_call (fun w₂ hfs₂ hcalm₂ => ?_)
    (fun reason w₂ hfs₂ hcalm₂ => spec_pure.mpr ⟨hfs₂ ▸ hkeeps,
      fun hc => absurd (hcalm hc) hcalm₂, .inr (by rw [hfs₂, hread])⟩)
    (fun w₂ hfs₂ hcalm₂ => ⟨hfs₂ ▸ hkeeps, fun hc => hcalm₂ (hcalm hc), .inr (by rw [hfs₂, hread])⟩)
  have hfs₂' : w₂.fs = w₁.fs := hfs₂
  refine spec_pure.mpr ⟨hfs₂' ▸ hkeeps, fun hc => ⟨hcalm₂ (hcalm hc), rfl, ?_⟩,
    .inr (by rw [hfs₂', hread])⟩
  rw [hfs₂']
  exact ⟨⟨_, rfl, hdir⟩, hread, by simp [hread]⟩

/-- Opening the log at start. -/
theorem spec_openAof {w : World FileName} {env : Env} (aof : Aof)
    (hen : env.config.persistence.aofEnabled = true) :
    Spec (openAof env aof) w
      (fun r w' => Keeps [.aof] w.fs w'.fs ∧
        (w.Calm → w'.Calm ∧ (pathIsSafe env.config.persistence.aofPath = true →
          r.1.isOk = true ∧ r.2.Attached w'.fs ((w.fs.read .aof).getD []))) ∧
        (w'.fs.read .aof = w.fs.read .aof ∨ w'.fs.read .aof = some ((w.fs.read .aof).getD [])))
      (fun w' => Keeps [.aof] w.fs w'.fs ∧ ¬ w.Calm ∧
        (w'.fs.read .aof = w.fs.read .aof ∨ w'.fs.read .aof = some ((w.fs.read .aof).getD []))) := by
  simp only [openAof, hen, Bool.not_true, Bool.false_eq_true, if_false]
  cases hsafe : pathIsSafe env.config.persistence.aofPath with
  | false => exact spec_pure.mpr ⟨Keeps.refl _ _, fun hc => ⟨hc, fun h => nomatch h⟩, .inl rfl⟩
  | true =>
    simp only [Bool.not_true, Bool.false_eq_true, if_false]
    refine (ensureParentDir_idle _ _).spec_bind (fun status w₁ hfs hcalm => ?_)
      fun w₁ hfs hcalm => ⟨hfs ▸ Keeps.refl _ _, hcalm, .inl (by rw [hfs])⟩
    cases hok : status.isOk with
    | false =>
      simp only [hok, Bool.false_eq_true, and_false, imp_false] at hcalm
      exact spec_pure.mpr ⟨hfs ▸ Keeps.refl _ _, fun hc => absurd hc hcalm, .inl (by rw [hfs])⟩
    | true =>
      refine (spec_reopenLocked aof _).mono (fun r w₂ h => ?_) fun w₂ h => ?_
      · rw [hfs] at h
        exact ⟨h.1, fun hc => ⟨(h.2.1 (hcalm hc).1).1, fun _ => (h.2.1 (hcalm hc).1).2⟩, h.2.2⟩
      · rw [hfs] at h
        exact ⟨h.1, fun hc => h.2.1 (hcalm hc).1, h.2.2⟩

end Aof

/-! ## Rewriting the log -/

/-- The text that stands for the live entries, in a snapshot as in a rewritten log. -/
def snapshotText (order : IterationOrder) (now : TimePoint) (storage : StorageEngine) : Bytes :=
  ((order.arrange (storage.snapshot now).1).flatMap snapshotRecords).flatMap encodeCommand

/-- The states of the files on the way of a rewrite from `fs` to a log with contents `new`. -/
inductive RewriteStage (new : Bytes) (fs fs' : FileSystem FileName) : Prop
  | before (keeps : Keeps [.aofTmp] fs fs')
  | swapped (keeps : Keeps [.aof, .aofTmp] fs fs') (log : fs'.read .aof = some new)
  | cleaned (keeps : Keeps [.aof, .aofTmp, .manifest] fs fs') (log : fs'.read .aof = some new)
      (manifest : fs'.read .manifest = none)

namespace Aof

variable {fs : FileSystem FileName} {new : Bytes}

/-- The removal of the manifest, after which the log is opened again. -/
theorem spec_removeManifest {w : World FileName} (path : Bytes)
    (h : Keeps [.aof, .aofTmp] fs w.fs) (hlog : w.fs.read .aof = some new) :
    Spec (removeIfSafe path .manifest) w
      (fun _ w' => RewriteStage new fs w'.fs ∧ w'.fs.read .aof = some new ∧
        (w.Calm → w'.Calm ∧ (pathIsSafe path = true → w'.fs.read .manifest = none)))
      (fun w' => RewriteStage new fs w'.fs ∧ ¬ w.Calm) := by
  unfold removeIfSafe
  split_ifs with hsafe
  · rw [spec_discard]
    refine spec_call (fun w' hfs hcalm => ?_)
      (fun reason w' hfs hcalm => ⟨.swapped (hfs ▸ h) (by rw [hfs, hlog]), by rw [hfs, hlog],
        fun hc => absurd hc hcalm⟩)
      (fun w' hfs hcalm => ⟨.swapped (hfs ▸ h) (by rw [hfs, hlog]), hcalm⟩)
    have hkeeps : Keeps [.aof, .aofTmp, .manifest] fs w'.fs :=
      (h.mono (by simp)).trans (hfs ▸ (Keeps.remove _ _).mono (by simp))
    have hread : w'.fs.read .aof = some new := by
      rw [hfs, w.fs.read_remove_of_ne (by decide), hlog]
    have hnone : w'.fs.read .manifest = none := by rw [hfs, read_remove_self]
    exact ⟨.cleaned hkeeps hread hnone, hread, fun hc => ⟨hcalm hc, fun _ => hnone⟩⟩
  · exact spec_pure.mpr ⟨.swapped h hlog, hlog, fun hc => ⟨hc, fun hs => absurd hs hsafe⟩⟩

/-- Opening the log again does not change the stage. -/
theorem RewriteStage.reopen {fs' fs'' : FileSystem FileName} (h : RewriteStage new fs fs')
    (hkeeps : Keeps [.aof] fs' fs'') (hlog' : fs''.read .aof = some new) :
    RewriteStage new fs fs'' := by
  cases h with
  | before keeps =>
    exact .swapped ((keeps.mono (by simp)).trans (hkeeps.mono (by simp))) hlog'
  | swapped keeps _ => exact .swapped (keeps.trans (hkeeps.mono (by simp))) hlog'
  | cleaned keeps _ hnone =>
    exact .cleaned (keeps.trans (hkeeps.mono (by simp))) hlog' (by rw [hkeeps.read (by decide), hnone])

/-- The live entries are written to the temporary file. -/
theorem spec_materialise {w : World FileName} {env : Env} (order : IterationOrder) (now : TimePoint)
    (aof : Aof) (storage : StorageEngine) :
    Spec (materialise env order now aof storage) w
      (fun r w' => Keeps [.aofTmp] w.fs w'.fs ∧
        (r.2.2 = storage ∨ r.2.2 = (storage.snapshot now).2) ∧ (w.Calm → w'.Calm ∧ r.1.isOk = true) ∧
        (r.1.isOk = true → r.2 = (aof, (storage.snapshot now).2) ∧
          w'.fs.read .aofTmp = some (snapshotText order now storage)))
      (fun w' => Keeps [.aofTmp] w.fs w'.fs ∧ ¬ w.Calm) := by
  simp only [materialise]
  refine (ensureParentDir_idle _ _).spec_bind (fun status w₁ hfs₁ hcalm₁ => ?_)
    fun w₁ hfs₁ hcalm₁ => ⟨hfs₁ ▸ Keeps.refl _ _, hcalm₁⟩
  have hkeeps₁ : Keeps [.aofTmp] w.fs w₁.fs := hfs₁ ▸ Keeps.refl _ _
  cases hok : status.isOk with
  | false =>
    simp only [hok, Bool.false_eq_true, and_false, imp_false] at hcalm₁
    exact spec_pure.mpr ⟨hkeeps₁, .inl rfl, fun hc => absurd hc hcalm₁,
      fun hs => by rw [hok] at hs; cases hs⟩
  | true =>
    simp only [Bool.not_true, Bool.false_eq_true, if_false]
    refine spec_openTmp hkeeps₁ (fun fd w₂ hkeeps₂ hdir₂ hread₂ hcalm₂ => ?_)
      (fun reason w₂ hkeeps₂ hcalm₂ => spec_pure.mpr ⟨hkeeps₂, .inl rfl,
        fun hc => absurd (hcalm₁ hc).1 hcalm₂, fun hs => by cases hs⟩)
      (fun w₂ hkeeps₂ hcalm₂ => ⟨hkeeps₂, fun hc => hcalm₂ (hcalm₁ hc).1⟩)
    have hc₂ : w.Calm → w₂.Calm := fun hc => hcalm₂ (hcalm₁ hc).1
    rw [spec_bind]
    refine (spec_writeRecords _ hkeeps₂ hdir₂ hread₂).mono (fun r w₃ h₃ => ?_)
      fun w₃ h₃ => ⟨h₃.1, fun hc => h₃.2 (hc₂ hc)⟩
    obtain ⟨hkeeps₃, hcalm₃, hread₃⟩ := h₃
    cases r with
    | error reason =>
      rw [spec_bind]
      refine (spec_removeTmp hkeeps₃).mono (fun _ w₄ h₄ => ?_)
        fun w₄ h₄ => ⟨h₄.1, fun hc => absurd (hcalm₃ (hc₂ hc)).2 (by simp)⟩
      exact spec_pure.mpr ⟨h₄.1, .inr rfl, fun hc => absurd (hcalm₃ (hc₂ hc)).2 (by simp),
        fun hs => by cases hs⟩
    | ok u =>
      have hc₃ : w.Calm → w₃.Calm := fun hc => (hcalm₃ (hc₂ hc)).1
      refine (syncAndClose_idle _).spec_bind (fun status w₄ hfs₄ hcalm₄ => ?_)
        fun w₄ hfs₄ hcalm₄ => ⟨hfs₄ ▸ hkeeps₃, fun hc => hcalm₄ (hc₃ hc)⟩
      have hkeeps₄ : Keeps [.aofTmp] w.fs w₄.fs := hfs₄ ▸ hkeeps₃
      cases hok₄ : status.isOk with
      | false =>
        simp only [hok₄, Bool.false_eq_true, and_false, imp_false] at hcalm₄
        simp only [Bool.not_false, if_true]
        rw [spec_bind]
        refine (spec_removeTmp hkeeps₄).mono (fun _ w₅ h₅ => ?_)
          fun w₅ h₅ => ⟨h₅.1, fun hc => hcalm₄ (hc₃ hc)⟩
        exact spec_pure.mpr ⟨h₅.1, .inr rfl, fun hc => absurd (hc₃ hc) hcalm₄,
          fun hs => by rw [hok₄] at hs; cases hs⟩
      | true =>
        refine spec_pure.mpr ⟨hkeeps₄, .inr rfl, fun hc => ⟨(hcalm₄ (hc₃ hc)).1, hok₄⟩,
          fun _ => ⟨rfl, ?_⟩⟩
        rw [hfs₄, hread₃ rfl]
        rfl

/-- The temporary file takes the place of the log, or the log is left alone. -/
theorem spec_swap {w : World FileName} (aof : Aof) (h : Keeps [.aofTmp] fs w.fs)
    (htmp : w.fs.read .aofTmp = some new) :
    Spec aof.swap w
      (fun r w' => (w.Calm → w'.Calm ∧ r.1.isOk = true) ∧
        ((r.1.isOk = true ∧ r.2 = aof ∧ Keeps [.aof, .aofTmp] fs w'.fs ∧ w'.fs.read .aof = some new) ∨
          (r.1.isOk = false ∧ Keeps [.aofTmp] fs w'.fs)))
      (fun w' => RewriteStage new fs w'.fs ∧ ¬ w.Calm) := by
  simp only [swap, renameFile]
  rw [spec_bind]
  refine spec_call (fun w₁ hfs hcalm => ?_) (fun reason w₁ hfs hcalm => ?_)
    (fun w₁ hfs hcalm => ⟨.before (hfs ▸ h), hcalm⟩)
  · have hkeeps : Keeps [.aof, .aofTmp] fs w₁.fs :=
      (h.mono (by simp)).trans (hfs ▸ (Keeps.rename _ _ _).mono (by simp))
    have hlog : w₁.fs.read .aof = some new := by rw [hfs]; exact w.fs.read_rename_dst htmp
    refine touch_idle.spec_bind (fun r w₂ hfs₂ hcalm₂ => ?_)
      fun w₂ hfs₂ hcalm₂ => ⟨.swapped (hfs₂ ▸ hkeeps) (by rw [hfs₂, hlog]), fun hc => hcalm₂ (hcalm hc)⟩
    exact spec_pure.mpr ⟨fun hc => ⟨(hcalm₂ (hcalm hc)).1, rfl⟩,
      .inl ⟨rfl, rfl, hfs₂ ▸ hkeeps, by rw [hfs₂, hlog]⟩⟩
  · -- the rename failed
    rw [spec_bind]
    refine (spec_removeTmp (hfs ▸ h)).mono (fun _ w₂ h₂ => ?_) fun w₂ h₂ => ⟨.before h₂.1, hcalm⟩
    exact spec_pure.mpr ⟨fun hc => absurd hc hcalm, .inr ⟨rfl, h₂.1⟩⟩

/-- The new log is opened. -/
theorem spec_resume {w : World FileName} (config : PersistenceConfig) (aof : Aof)
    (hlog : w.fs.read .aof = some new) :
    Spec (aof.resume config) w
      (fun r w' => Keeps [.aof] w.fs w'.fs ∧ w'.fs.read .aof = some new ∧
        (w.Calm → w'.Calm ∧ r.1.isOk = true ∧ r.2.Attached w'.fs new))
      (fun w' => Keeps [.aof] w.fs w'.fs ∧ w'.fs.read .aof = some new ∧ ¬ w.Calm) := by
  simp only [resume]
  rw [spec_bind]
  refine (spec_reopenLocked aof config.aofPath).mono (fun r w' h => ?_) fun w' h => ?_
  · obtain ⟨hkeeps, hcalm, hread⟩ := h
    simp only [hlog, Option.getD_some, or_self] at hcalm hread
    cases hok : r.1.isOk with
    | false =>
      simp only [hok, Bool.false_eq_true, false_and, and_false, imp_false] at hcalm
      exact spec_pure.mpr ⟨hkeeps, hread, fun hc => absurd hc hcalm⟩
    | true =>
      refine spec_pure.mpr ⟨hkeeps, hread, fun hc => ⟨(hcalm hc).1, rfl, ?_⟩⟩
      have hatt := (hcalm hc).2.2
      exact ⟨hatt.fd, hatt.contents, hatt.size⟩
  · obtain ⟨hkeeps, hcalm, hread⟩ := h
    simp only [hlog, Option.getD_some, or_self] at hread
    exact ⟨hkeeps, hread, hcalm⟩

/-- Putting the temporary file in the place of the log. -/
theorem spec_installRewrite {w : World FileName} {config : PersistenceConfig} (aof : Aof)
    (h : Keeps [.aofTmp] fs w.fs) (htmp : w.fs.read .aofTmp = some new) :
    Spec (installRewrite config aof) w
      (fun r w' => RewriteStage new fs w'.fs ∧ (w.Calm → w'.Calm ∧ r.1.isOk = true ∧
        r.2.Attached w'.fs new ∧ (pathIsSafe config.manifestPath = true → w'.fs.read .manifest = none)) ∧
        (r.1.isOk = true → w'.fs.read .aof = some new))
      (fun w' => RewriteStage new fs w'.fs ∧ ¬ w.Calm) := by
  rw [installRewrite_eq, spec_bind]
  refine (spec_swap aof h htmp).mono (fun r w₁ h₁ => ?_) fun w₁ h₁ => h₁
  obtain ⟨status, aof₁⟩ := r
  obtain ⟨hcalm₁, ⟨hok, rfl, hkeeps, hlog⟩ | ⟨hok, hkeeps⟩⟩ := h₁
  · simp only at hok
    simp only [hok, Bool.not_true, Bool.false_eq_true, if_false]
    rw [spec_bind]
    refine (spec_removeManifest config.manifestPath hkeeps hlog).mono
      (fun _ w₂ h₂ => ?_) fun w₂ h₂ => ⟨h₂.1, fun hc => h₂.2 (hcalm₁ hc).1⟩
    obtain ⟨hstage, hlog₂, hcalm₂⟩ := h₂
    have hc₂ : w.Calm → w₂.Calm := fun hc => (hcalm₂ (hcalm₁ hc).1).1
    refine (spec_resume config _ hlog₂).mono (fun r w₃ h₃ => ?_) fun w₃ h₃ =>
      ⟨RewriteStage.reopen hstage h₃.1 h₃.2.1, fun hc => h₃.2.2 (hc₂ hc)⟩
    obtain ⟨hkeeps₃, hlog₃, hcalm₃⟩ := h₃
    refine ⟨RewriteStage.reopen hstage hkeeps₃ hlog₃, fun hc => ?_, fun _ => hlog₃⟩
    obtain ⟨hc₃, hok₃, hatt⟩ := hcalm₃ (hc₂ hc)
    refine ⟨hc₃, hok₃, hatt, fun hs => ?_⟩
    rw [hkeeps₃.read (by decide)]
    exact (hcalm₂ (hcalm₁ hc).1).2 hs
  · simp only at hok
    simp only [hok, Bool.not_false, if_true]
    refine spec_pure.mpr ⟨.before hkeeps, fun hc => ?_, fun hs => by rw [hok] at hs; cases hs⟩
    rw [hok] at hcalm₁
    exact absurd (hcalm₁ hc).2 (by simp)

/-- A rewrite only goes through with the log enabled, at a safe path. -/
theorem safe_of_rewrite {env : Env} {order : IterationOrder} {now : TimePoint} {aof aof' : Aof}
    {storage storage' : StorageEngine} {status : Status} {w w' : World FileName}
    (hrun : rewrite env order now aof storage w = .ok (status, aof', storage') w')
    (hok : status.isOk = true) :
    env.config.persistence.aofEnabled = true ∧ pathIsSafe env.config.persistence.aofPath = true := by
  by_contra hnot
  rw [rewrite] at hrun
  by_cases hen : env.config.persistence.aofEnabled = true
  · have hsafe : pathIsSafe env.config.persistence.aofPath = false := by
      simpa using fun h => hnot ⟨hen, h⟩
    simp only [hen, hsafe, Bool.not_true, Bool.not_false, Bool.false_eq_true, if_false, if_true] at hrun
    cases hrun
    cases hok
  · simp only [hen, Bool.not_false, if_true] at hrun
    cases hrun
    cases hok

/-- **A rewrite of the log**, for every plan: the files are in one of the stages, the new log is in
place if it returns ok, and in a calm world it is, with the process attached to it and the manifest
gone. -/
theorem spec_rewrite {w : World FileName} {env : Env} (order : IterationOrder) (now : TimePoint)
    (aof : Aof) (storage : StorageEngine) (hen : env.config.persistence.aofEnabled = true)
    (hsafe : pathIsSafe env.config.persistence.aofPath = true) :
    Spec (rewrite env order now aof storage) w
      (fun r w' => RewriteStage (snapshotText order now storage) w.fs w'.fs ∧
        (r.2.2 = storage ∨ r.2.2 = (storage.snapshot now).2) ∧
        (w.Calm → r.2.2 = (storage.snapshot now).2 ∧ w'.Calm ∧ r.1.isOk = true ∧
          r.2.1.Attached w'.fs (snapshotText order now storage) ∧
          (pathIsSafe env.config.persistence.manifestPath = true → w'.fs.read .manifest = none)) ∧
        (r.1.isOk = true → w'.fs.read .aof = some (snapshotText order now storage)))
      (fun w' => RewriteStage (snapshotText order now storage) w.fs w'.fs ∧ ¬ w.Calm) := by
  rw [rewrite_eq hen hsafe, spec_bind]
  refine (spec_materialise order now aof storage).mono (fun r w₁ h₁ => ?_)
    fun w₁ h₁ => ⟨.before h₁.1, h₁.2⟩
  obtain ⟨status, aof₁, storage₁⟩ := r
  obtain ⟨hkeeps, hstorage, hcalm₁, hdone⟩ := h₁
  cases hok : status.isOk with
  | false =>
    simp only [hok, Bool.not_false, if_true]
    refine spec_pure.mpr ⟨.before hkeeps, hstorage, fun hc => ?_, fun hs => by rw [hok] at hs; cases hs⟩
    simp only [hok] at hcalm₁
    exact absurd (hcalm₁ hc).2 (by simp)
  | true =>
    obtain ⟨heq, htmp⟩ := hdone hok
    cases heq
    simp only [hok, Bool.not_true, Bool.false_eq_true, if_false]
    rw [spec_bind]
    refine (spec_installRewrite aof hkeeps htmp).mono (fun r w₂ h₂ => ?_)
      fun w₂ h₂ => ⟨h₂.1, fun hc => h₂.2 (hcalm₁ hc).1⟩
    exact spec_pure.mpr ⟨h₂.1, .inr rfl, fun hc => ⟨rfl, h₂.2.1 (hcalm₁ hc).1⟩, h₂.2.2⟩

end Aof

/-! ## Saving a snapshot -/

namespace SnapshotStore

variable {env : Env} {store : SnapshotStore} {fs : FileSystem FileName}

/-- A new file in the place of `name`, or only a temporary one changed. -/
theorem spec_install {tmp name : FileName} {new : Bytes} (message : Bytes) {w : World FileName}
    (h : Keeps [tmp] fs w.fs) (htmp : w.fs.read tmp = some new) :
    Spec (install tmp name message) w
      (fun status w' => (w.Calm → w'.Calm ∧ status.isOk = true) ∧
        ((status.isOk = true ∧ Keeps [tmp, name] fs w'.fs ∧ w'.fs.read name = some new) ∨
          (status.isOk = false ∧ Keeps [tmp] fs w'.fs)))
      (fun w' => Keeps [tmp] fs w'.fs ∧ ¬ w.Calm) := by
  simp only [install, renameFile]
  rw [spec_bind]
  refine spec_call (fun w₁ hfs hcalm => ?_) (fun reason w₁ hfs hcalm => ?_)
    (fun w₁ hfs hcalm => ⟨hfs ▸ h, hcalm⟩)
  · refine spec_pure.mpr ⟨fun hc => ⟨hcalm hc, rfl⟩, .inl ⟨rfl, ?_, ?_⟩⟩
    · exact (h.mono (by simp)).trans (hfs ▸ Keeps.rename _ _ _)
    · rw [hfs]
      exact w.fs.read_rename_dst htmp
  · have hkeeps : Keeps [tmp] fs w₁.fs := hfs ▸ h
    rw [spec_bind, spec_discard]
    exact spec_call
      (fun w₂ hfs₂ _ => spec_pure.mpr ⟨fun hc => absurd hc hcalm,
        .inr ⟨rfl, hkeeps.trans (hfs₂ ▸ Keeps.remove _ _)⟩⟩)
      (fun _ w₂ hfs₂ _ => spec_pure.mpr ⟨fun hc => absurd hc hcalm, .inr ⟨rfl, hfs₂ ▸ hkeeps⟩⟩)
      (fun w₂ hfs₂ _ => ⟨hfs₂ ▸ hkeeps, hcalm⟩)

/-- The snapshot file. -/
theorem spec_saveSnapshotFile {w : World FileName} (order : IterationOrder) (now : TimePoint)
    (storage : StorageEngine) :
    Spec (saveSnapshotFile env store order now storage) w
      (fun r w' => (w.Calm → w'.Calm ∧ (pathIsSafe store.path = true → r.1.isOk = true)) ∧
        ((r.1.isOk = true ∧ r.2 = (storage.snapshot now).2 ∧ pathIsSafe store.path = true ∧
            Keeps [.snapshotTmp, .snapshot] w.fs w'.fs ∧
            w'.fs.read .snapshot = some (snapshotText order now storage)) ∨
          (r.1.isOk = false ∧ (r.2 = storage ∨ r.2 = (storage.snapshot now).2) ∧
            Keeps [.snapshotTmp] w.fs w'.fs)))
      (fun w' => Keeps [.snapshotTmp] w.fs w'.fs ∧ ¬ w.Calm) := by
  simp only [saveSnapshotFile]
  cases hsafe : pathIsSafe store.path with
  | false =>
    exact spec_pure.mpr ⟨fun hc => ⟨hc, fun h => nomatch h⟩, .inr ⟨rfl, .inl rfl, Keeps.refl _ _⟩⟩
  | true =>
    simp only [Bool.not_true, Bool.false_eq_true, if_false]
    refine (ensureParentDir_idle _ _).spec_bind (fun status w₁ hfs₁ hcalm₁ => ?_)
      fun w₁ hfs₁ hcalm₁ => ⟨hfs₁ ▸ Keeps.refl _ _, hcalm₁⟩
    have hkeeps₁ : Keeps [.snapshotTmp] w.fs w₁.fs := hfs₁ ▸ Keeps.refl _ _
    cases hok : status.isOk with
    | false =>
      simp only [hok, Bool.false_eq_true, and_false, imp_false] at hcalm₁
      exact spec_pure.mpr ⟨fun hc => absurd hc hcalm₁, .inr ⟨hok, .inl rfl, hkeeps₁⟩⟩
    | true =>
      simp only [Bool.not_true, Bool.false_eq_true, if_false]
      refine spec_openTmp hkeeps₁ (fun fd w₂ hkeeps₂ hdir₂ hread₂ hcalm₂ => ?_)
        (fun reason w₂ hkeeps₂ hcalm₂ => spec_pure.mpr ⟨fun hc => absurd (hcalm₁ hc).1 hcalm₂,
          .inr ⟨rfl, .inl rfl, hkeeps₂⟩⟩)
        (fun w₂ hkeeps₂ hcalm₂ => ⟨hkeeps₂, fun hc => hcalm₂ (hcalm₁ hc).1⟩)
      have hc₂ : w.Calm → w₂.Calm := fun hc => hcalm₂ (hcalm₁ hc).1
      rw [spec_bind]
      refine (spec_streamRecords _ hkeeps₂ hdir₂ hread₂).mono (fun r w₃ h₃ => ?_)
        fun w₃ h₃ => ⟨h₃.1, fun hc => h₃.2 (hc₂ hc)⟩
      obtain ⟨hkeeps₃, hcalm₃, hread₃⟩ := h₃
      cases r with
      | false =>
        exact spec_pure.mpr ⟨fun hc => absurd (hcalm₃ (hc₂ hc)).2 (by simp),
          .inr ⟨rfl, .inr rfl, hkeeps₃⟩⟩
      | true =>
        have hc₃ : w.Calm → w₃.Calm := fun hc => (hcalm₃ (hc₂ hc)).1
        refine touch_idle.spec_bind (fun r w₄ hfs₄ hcalm₄ => ?_)
          fun w₄ hfs₄ hcalm₄ => ⟨hfs₄ ▸ hkeeps₃, fun hc => hcalm₄ (hc₃ hc)⟩
        have hkeeps₄ : Keeps [.snapshotTmp] w.fs w₄.fs := hfs₄ ▸ hkeeps₃
        cases r with
        | error reason =>
          exact spec_pure.mpr ⟨fun hc => absurd (hcalm₄ (hc₃ hc)).2 (by simp),
            .inr ⟨rfl, .inr rfl, hkeeps₄⟩⟩
        | ok u =>
          have hc₄ : w.Calm → w₄.Calm := fun hc => (hcalm₄ (hc₃ hc)).1
          rw [spec_bind]
          refine (spec_install _ hkeeps₄ (by rw [hfs₄, hread₃ rfl])).mono
            (fun status w₅ h₅ => ?_) fun w₅ h₅ => ⟨h₅.1, fun hc => h₅.2 (hc₄ hc)⟩
          refine spec_pure.mpr ⟨fun hc => ⟨(h₅.1 (hc₄ hc)).1, fun _ => (h₅.1 (hc₄ hc)).2⟩, ?_⟩
          exact h₅.2.imp (fun h => ⟨h.1, rfl, trivial, h.2⟩) (fun h => ⟨h.1, .inr rfl, h.2⟩)

/-- `write_manifest`, for every plan: the new lines are in place exactly if it returns ok, and before the
rename only the temporary file is touched. -/
theorem spec_writeManifest {w : World FileName} (manifest : Manifest) :
    Spec (writeManifest env store manifest) w
      (fun status w' => (w.Calm → w'.Calm ∧ (pathIsSafe store.manifestPath = true → status.isOk = true)) ∧
        ((status.isOk = true ∧ Keeps [store.manifestTmpFile, store.manifestFile] w.fs w'.fs ∧
            w'.fs.read store.manifestFile = some (manifestText env manifest)) ∨
          (status.isOk = false ∧ Keeps [store.manifestTmpFile] w.fs w'.fs)))
      (fun w' => Keeps [store.manifestTmpFile] w.fs w'.fs ∧ ¬ w.Calm) := by
  simp only [writeManifest]
  cases hsafe : pathIsSafe store.manifestPath with
  | false => exact spec_pure.mpr ⟨fun hc => ⟨hc, fun h => nomatch h⟩, .inr ⟨rfl, Keeps.refl _ _⟩⟩
  | true =>
    simp only [Bool.not_true, Bool.false_eq_true, if_false]
    refine (ensureParentDir_idle _ _).spec_bind (fun status w₁ hfs₁ hcalm₁ => ?_)
      fun w₁ hfs₁ hcalm₁ => ⟨hfs₁ ▸ Keeps.refl _ _, hcalm₁⟩
    have hkeeps₁ : Keeps [store.manifestTmpFile] w.fs w₁.fs := hfs₁ ▸ Keeps.refl _ _
    cases hok : status.isOk with
    | false =>
      simp only [hok, Bool.false_eq_true, and_false, imp_false] at hcalm₁
      exact spec_pure.mpr ⟨fun hc => absurd hc hcalm₁, .inr ⟨hok, hkeeps₁⟩⟩
    | true =>
      simp only [Bool.not_true, Bool.false_eq_true, if_false]
      refine spec_openTmp hkeeps₁ (fun fd w₂ hkeeps₂ hdir₂ hread₂ hcalm₂ => ?_)
        (fun reason w₂ hkeeps₂ hcalm₂ => spec_pure.mpr ⟨fun hc => absurd (hcalm₁ hc).1 hcalm₂,
          .inr ⟨rfl, hkeeps₂⟩⟩)
        (fun w₂ hkeeps₂ hcalm₂ => ⟨hkeeps₂, fun hc => hcalm₂ (hcalm₁ hc).1⟩)
      have hc₂ : w.Calm → w₂.Calm := fun hc => hcalm₂ (hcalm₁ hc).1
      have hwrite := fun bytes => hkeeps₂.trans (Keeps.append hdir₂ bytes)
      rw [spec_bind]
      refine spec_streamWrite (fun w₃ hfs₃ hcalm₃ => ?_)
        (fun written w₃ hfs₃ hcalm₃ => spec_pure.mpr ⟨fun hc => absurd (hc₂ hc) hcalm₃,
          .inr ⟨rfl, hfs₃ ▸ hwrite written⟩⟩)
        (fun w₃ hfs₃ hcalm₃ => ⟨hfs₃ ▸ hkeeps₂, fun hc => hcalm₃ (hc₂ hc)⟩)
      have hread₃ : w₃.fs.read store.manifestTmpFile = some (manifestText env manifest) := by
        rw [hfs₃]
        exact w₂.fs.read_append_self hdir₂ hread₂
      have hc₃ : w.Calm → w₃.Calm := fun hc => hcalm₃ (hc₂ hc)
      simp only [Bool.not_true, Bool.false_eq_true, if_false]
      refine touch_idle.spec_bind (fun r w₄ hfs₄ hcalm₄ => ?_)
        fun w₄ hfs₄ hcalm₄ => ⟨hfs₄ ▸ hfs₃ ▸ hwrite _, fun hc => hcalm₄ (hc₃ hc)⟩
      have hkeeps₄ : Keeps [store.manifestTmpFile] w.fs w₄.fs := hfs₄ ▸ hfs₃ ▸ hwrite _
      cases r with
      | error reason =>
        exact spec_pure.mpr ⟨fun hc => absurd (hcalm₄ (hc₃ hc)).2 (by simp), .inr ⟨rfl, hkeeps₄⟩⟩
      | ok u =>
        have hc₄ : w.Calm → w₄.Calm := fun hc => (hcalm₄ (hc₃ hc)).1
        refine (spec_install _ hkeeps₄ (by rw [hfs₄, hread₃])).mono (fun status w₅ h₅ => ?_)
          fun w₅ h₅ => ⟨h₅.1, fun hc => h₅.2 (hc₄ hc)⟩
        exact ⟨fun hc => ⟨(h₅.1 (hc₄ hc)).1, fun _ => (h₅.1 (hc₄ hc)).2⟩, h₅.2⟩

/-- The manifest and its temporary file are files of their own. -/
structure Separate (store : SnapshotStore) : Prop where
  tmp_ne : store.manifestTmpFile ∉ [.aof, .aofTmp, .snapshotTmp, .snapshot, store.manifestFile]
  ne : store.manifestFile ∉ [.aof, .aofTmp, .snapshotTmp, .snapshot]

/-- The files of the store are not the log. -/
theorem separate_ofConfig (config : Config) : (ofConfig config).Separate := by
  unfold ofConfig SnapshotStore.new
  split_ifs <;> exact ⟨by simp, by simp⟩

/-- A `SAVE` that has not committed: the snapshot is the old one or the new one, and the manifest
and the log are as they were. -/
structure Uncommitted (store : SnapshotStore) (text : Bytes) (fs fs' : FileSystem FileName) : Prop where
  keeps : Keeps [.snapshotTmp, .snapshot, store.manifestTmpFile] fs fs'
  snapshot : fs'.read .snapshot = fs.read .snapshot ∨ fs'.read .snapshot = some text

/-- A `SAVE` that went through. -/
structure Committed (store : SnapshotStore) (text manifest : Bytes) (fs fs' : FileSystem FileName) :
    Prop where
  safe : pathIsSafe store.path = true
  keeps : Keeps [.snapshotTmp, .snapshot, store.manifestTmpFile, store.manifestFile] fs fs'
  snapshot : fs'.read .snapshot = some text
  manifest : fs'.read store.manifestFile = some manifest

/-- The snapshot, behind a sync of the log. -/
theorem spec_syncAndSave {w : World FileName} (order : IterationOrder) (now : TimePoint)
    (storage : StorageEngine) (aof : Aof) :
    Spec (syncAndSave env store order now storage aof) w
      (fun r w' => (w.Calm → w'.Calm ∧ (pathIsSafe store.path = true → r.1.isOk = true)) ∧
        ((r.1.isOk = true ∧ r.2 = (storage.snapshot now).2 ∧ pathIsSafe store.path = true ∧
            Keeps [.snapshotTmp, .snapshot] w.fs w'.fs ∧
            w'.fs.read .snapshot = some (snapshotText order now storage)) ∨
          (r.1.isOk = false ∧ (r.2 = storage ∨ r.2 = (storage.snapshot now).2) ∧
            Keeps [.snapshotTmp] w.fs w'.fs)))
      (fun w' => Keeps [.snapshotTmp] w.fs w'.fs ∧ ¬ w.Calm) := by
  simp only [syncAndSave]
  refine (sync_idle _ aof).spec_bind (fun status w₁ hfs₁ hcalm₁ => ?_)
    fun w₁ hfs₁ hcalm₁ => ⟨hfs₁ ▸ Keeps.refl _ _, hcalm₁⟩
  cases hok₁ : status.isOk with
  | false =>
    simp only [hok₁, Bool.false_eq_true, and_false, imp_false] at hcalm₁
    exact spec_pure.mpr ⟨fun hc => absurd hc hcalm₁, .inr ⟨hok₁, .inl rfl, hfs₁ ▸ Keeps.refl _ _⟩⟩
  | true =>
    simp only [Bool.not_true, Bool.false_eq_true, if_false]
    rw [← hfs₁]
    exact (spec_saveSnapshotFile order now storage).mono
      (fun r w₂ h₂ => ⟨fun hc => h₂.1 (hcalm₁ hc).1, h₂.2⟩)
      fun w₂ h₂ => ⟨h₂.1, fun hc => h₂.2 (hcalm₁ hc).1⟩

/-- **`SAVE` with the log open**, for every plan: it commits exactly when it returns ok. -/
theorem spec_save {w : World FileName} (hsep : store.Separate) (order : IterationOrder)
    (now : TimePoint) (storage : StorageEngine) {aof : Aof}
    (hen : aof.enabled env.config.persistence = true) :
    Spec (save env store order now storage (some aof)) w
      (fun r w' => (w.Calm → w'.Calm ∧ (pathIsSafe store.path = true →
          pathIsSafe store.manifestPath = true → r.1.isOk = true)) ∧
        ((r.1.isOk = true ∧ r.2 = (storage.snapshot now).2 ∧
            Committed store (snapshotText order now storage)
              (manifestText env ⟨store.path, env.config.persistence.aofPath, aof.currentSize,
                unixMs now⟩) w.fs w'.fs) ∨
          (r.1.isOk = false ∧ (r.2 = storage ∨ r.2 = (storage.snapshot now).2) ∧
            Uncommitted store (snapshotText order now storage) w.fs w'.fs)))
      (fun w' => Uncommitted store (snapshotText order now storage) w.fs w'.fs ∧ ¬ w.Calm) := by
  have hsnap : FileName.snapshot ∉ [store.manifestTmpFile] := by
    have h := hsep.tmp_ne
    simp only [List.mem_cons, not_or] at h
    simpa using fun h' => h.2.2.2.1 h'.symm
  have hsnap' : FileName.snapshot ∉ [store.manifestTmpFile, store.manifestFile] := by
    have h := hsep.ne
    simp only [List.mem_cons, not_or] at h hsnap ⊢
    exact ⟨hsnap.1, fun h' => h.2.2.2.1 h'.symm, by simp⟩
  -- the snapshot file untouched
  have hold : ∀ {fs'}, Keeps [.snapshotTmp] w.fs fs' →
      Uncommitted store (snapshotText order now storage) w.fs fs' := fun hk =>
    ⟨hk.mono (by simp), .inl (hk.read (by decide))⟩
  rw [save_eq env store hen, spec_bind]
  refine (spec_syncAndSave order now storage aof).mono (fun r w₁ h₁ => ?_)
    fun w₁ h₁ => ⟨hold h₁.1, h₁.2⟩
  obtain ⟨hcalm₁, h₁⟩ := h₁
  obtain ⟨status₁, storage₁⟩ := r
  rcases h₁ with ⟨hok₁, rfl, hsafe₁, hkeeps₁, hread₁⟩ | ⟨hok₁, hstorage, hkeeps₁⟩
  · simp only at hok₁
    simp only [hok₁, Bool.not_true, Bool.false_eq_true, if_false]
    -- the new snapshot with the old manifest
    have hmid : ∀ {fs'}, Keeps [store.manifestTmpFile] w₁.fs fs' →
        Uncommitted store (snapshotText order now storage) w.fs fs' := fun hk =>
      ⟨(hkeeps₁.mono (by simp)).trans (hk.mono (by simp)), .inr (by rw [hk.read hsnap, hread₁])⟩
    rw [spec_bind]
    refine (spec_writeManifest _).mono (fun status₂ w₂ h₂ => ?_)
      fun w₂ h₂ => ⟨hmid h₂.1, fun hc => h₂.2 (hcalm₁ hc).1⟩
    obtain ⟨hcalm₂, h₂⟩ := h₂
    refine spec_pure.mpr ⟨fun hc => ?_, ?_⟩
    · obtain ⟨hc₂, hok⟩ := hcalm₂ (hcalm₁ hc).1
      exact ⟨hc₂, fun _ => hok⟩
    rcases h₂ with ⟨hok₂, hkeeps₂, hread₂⟩ | ⟨hok₂, hkeeps₂⟩
    · exact .inl ⟨hok₂, rfl, hsafe₁, (hkeeps₁.mono (by simp)).trans (hkeeps₂.mono (by simp)),
        by rw [hkeeps₂.read hsnap', hread₁], hread₂⟩
    · exact .inr ⟨hok₂, .inr rfl, hmid hkeeps₂⟩
  · simp only at hok₁
    simp only [hok₁, Bool.not_false, if_true]
    refine spec_pure.mpr ⟨fun hc => ?_, .inr ⟨hok₁, hstorage, hold hkeeps₁⟩⟩
    obtain ⟨hc₁, hsafe₁⟩ := hcalm₁ hc
    exact ⟨hc₁, fun hsafe _ => hsafe₁ hsafe⟩

end SnapshotStore

end VeloxDb
