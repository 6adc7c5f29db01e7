import VeloxDb.Persistence.Snapshot

/-!
# The messages of the file programs

A failed `SAVE`, `BGREWRITEAOF` or append is reported to the client in a line. The messages are put
together from fixed words, configured paths and the kernel's reasons, so they stay on one line if
those do (`OneLine`).
-/

namespace VeloxDb

open Decimal Util Resp FileProgram

/-- A text without a line feed. -/
def OneLine (s : Bytes) : Prop := (10 : UInt8) ∉ s

instance (s : Bytes) : Decidable (OneLine s) := inferInstanceAs (Decidable ((10 : UInt8) ∉ s))

/-- Two texts without a line break have none together. -/
theorem OneLine.append {s t : Bytes} (hs : OneLine s) (ht : OneLine t) : OneLine (s ++ t) := by
  simp only [OneLine, List.mem_append, not_or]
  exact ⟨hs, ht⟩

/-- The empty text has no line break. -/
theorem oneLine_nil : OneLine [] := List.not_mem_nil

/-- A numeral has no line break. -/
theorem oneLine_print (n : ℕ) : OneLine (print n) := fun h => by
  simpa [isDigit] using print_isDigit n 10 h

/-- The paths of the log that messages quote are on one line. -/
structure LogPathOneLine (env : Env) : Prop where
  path : OneLine env.config.persistence.aofPath
  parent : OneLine (env.parentPath env.config.persistence.aofPath)

/-- The outcome of a call, with a reason on one line. -/
def ReasonOneLine {α : Type} (r : Except Bytes α) : Prop := ∀ reason, r = .error reason → OneLine reason

/-- A status with a message on one line. -/
def MessageOneLine (status : Status) : Prop := OneLine status.message

/-- The empty message of success. -/
theorem messageOneLine_ok : MessageOneLine .ok := oneLine_nil

/-- The message of an I/O error is what it was made of. -/
theorem messageOneLine_ioError {message : Bytes} (h : OneLine message) :
    MessageOneLine (.ioError message) := h

/-- The message of a bad argument is what it was made of. -/
theorem messageOneLine_invalidArgument {message : Bytes} (h : OneLine message) :
    MessageOneLine (.invalidArgument message) := h

/-- A call that changes nothing reports the reason of the kernel. -/
theorem reports_touch : Reports OneLine ReasonOneLine touch := reports_call

/-- Removing a file reports the reason of the kernel. -/
theorem reports_removeFile (name : FileName) : Reports OneLine ReasonOneLine (removeFile name) :=
  reports_call

/-- Renaming a file reports the reason of the kernel. -/
theorem reports_renameFile (src dst : FileName) :
    Reports OneLine ReasonOneLine (renameFile src dst) :=
  reports_call

/-- A directory that cannot be created is reported with its name and the reason. -/
theorem reports_ensureParentDir {parent : Bytes} {message : Bytes → Bytes}
    (hmessage : ∀ reason, OneLine reason → OneLine (message reason)) :
    Reports OneLine MessageOneLine (ensureParentDir parent message) := by
  rw [ensureParentDir]
  split_ifs
  · exact reports_pure messageOneLine_ok
  · refine reports_touch.bind fun r hr => ?_
    cases r with
    | ok _ => exact reports_pure messageOneLine_ok
    | error reason => exact reports_pure (hmessage reason (hr reason rfl))

/-- A call whose failure is reported with a fixed beginning. -/
theorem reports_touch_message {before : Bytes} (hbefore : OneLine before) :
    Reports OneLine MessageOneLine (do
      match ← touch with
      | .ok () => return .ok
      | .error reason => return .ioError (before ++ reason)) := by
  refine reports_touch.bind fun r hr => ?_
  cases r with
  | ok _ => exact reports_pure messageOneLine_ok
  | error reason => exact reports_pure (hbefore.append (hr reason rfl))

/-- A failed `fsync` is reported with the name of the file and the reason. -/
theorem reports_syncFd {target : Bytes} (htarget : OneLine target) :
    Reports OneLine MessageOneLine (syncFd target) :=
  reports_touch_message (((by decide : OneLine (ascii "fsync failed for ")).append htarget).append
    (by decide))

/-- A failed `close` is reported with the name of the file and the reason. -/
theorem reports_closeFd {target : Bytes} (htarget : OneLine target) :
    Reports OneLine MessageOneLine (closeFd target) :=
  reports_touch_message (((by decide : OneLine (ascii "failed to close ")).append htarget).append
    (by decide))

/-- Of two failures the first is reported. -/
theorem reports_syncAndClose {target : Bytes} (htarget : OneLine target) :
    Reports OneLine MessageOneLine (syncAndClose target) := by
  refine (reports_syncFd htarget).bind fun synced hsynced => ?_
  refine (reports_closeFd htarget).bind fun closed hclosed => reports_pure ?_
  split_ifs
  · exact hclosed
  · exact hsynced

/-- A record that cannot be written is reported with the reason. -/
theorem reports_writeRecords (fd : ℕ) (records : List (List Bytes)) :
    Reports OneLine ReasonOneLine (writeRecords fd records) := by
  induction records with
  | nil => exact reports_pure fun _ h => by cases h
  | cons record records ih =>
    refine (reports_writeAll (by decide)).bind fun r hr => ?_
    cases r with
    | ok _ => exact ih
    | error reason => exact reports_pure fun reason' h => by cases h; exact hr reason rfl

/-- A stream reports no reason at all. -/
theorem reports_streamRecords (fd : ℕ) (records : List (List Bytes)) :
    Reports OneLine (fun _ => True) (streamRecords fd records) := by
  induction records with
  | nil => exact reports_pure trivial
  | cons record records ih =>
    refine reports_streamWrite.bind fun written _ => ?_
    cases written with
    | true => exact ih
    | false => exact reports_pure trivial

/-! ## The log -/

namespace Aof

/-- A log that cannot be opened is reported with its path and the reason. -/
theorem reports_reopenLocked (aof : Aof) {path : Bytes} (hpath : OneLine path) :
    Reports OneLine (fun r => MessageOneLine r.1) (aof.reopenLocked path) := by
  refine reports_call.bind fun r hr => ?_
  cases r with
  | error reason =>
    have hbefore : OneLine (ascii "failed to open AOF " ++ path ++ ascii ": ") :=
      ((by decide : OneLine (ascii "failed to open AOF ")).append hpath).append (by decide)
    exact reports_pure (hbefore.append (hr reason rfl))
  | ok fd =>
    refine reports_call.bind fun r _ => ?_
    cases r <;> exact reports_pure messageOneLine_ok

/-- A write to the log that fails is reported with the reason. -/
theorem reports_writeBytesLocked (aof : Aof) (bytes : Bytes) :
    Reports OneLine (fun r => MessageOneLine r.1) (aof.writeBytesLocked bytes) := by
  rw [writeBytesLocked]
  split
  · exact reports_pure (messageOneLine_ioError (by decide))
  · refine (reports_writeAll (by decide)).bind fun r hr => ?_
    cases r with
    | ok _ => exact reports_pure messageOneLine_ok
    | error reason => exact reports_pure (hr reason rfl)

/-- A record that cannot be appended is reported on one line. -/
theorem reports_append (config : PersistenceConfig) (aof : Aof) (args : List Bytes) :
    Reports OneLine (fun r => MessageOneLine r.1) (aof.append config args) := by
  rw [append]
  by_cases henabled : (!aof.enabled config) = true
  · rw [if_pos henabled]
    exact reports_pure messageOneLine_ok
  rw [if_neg henabled]
  refine (reports_writeBytesLocked aof _).bind fun r hr => ?_
  obtain ⟨status, aof⟩ := r
  simp only
  split
  · exact reports_pure hr
  split
  · refine reports_touch.bind fun r hr => ?_
    cases r with
    | ok _ => exact reports_pure messageOneLine_ok
    | error reason =>
      exact reports_pure ((by decide : OneLine (ascii "fsync failed: ")).append (hr reason rfl))
  · exact reports_pure messageOneLine_ok

/-- A log that cannot be synced is reported with its path. -/
theorem reports_sync {env : Env} (h : LogPathOneLine env) (aof : Aof) :
    Reports OneLine MessageOneLine (aof.sync env.config.persistence) := by
  rw [sync]
  split_ifs
  · exact reports_pure messageOneLine_ok
  · exact reports_syncFd h.path

/-- A rewritten log that cannot take its place is reported on one line. -/
theorem reports_installRewrite {config : PersistenceConfig} (hpath : OneLine config.aofPath)
    (aof : Aof) : Reports OneLine (fun r => MessageOneLine r.1) (installRewrite config aof) := by
  refine (reports_renameFile _ _).bind fun r _ => ?_
  cases r with
  | error _ =>
    refine (reports_removeFile _).bind fun r hr => ?_
    have hbefore : OneLine (ascii "failed to install rewritten AOF: ") := by decide
    cases r with
    | ok _ => exact reports_pure (hbefore.append (by decide : OneLine (ascii "Success")))
    | error reason => exact reports_pure (hbefore.append (hr reason rfl))
  | ok _ =>
    refine reports_touch.bind fun _ _ => ?_
    have hremove : Reports OneLine (fun _ => True) (removeIfSafe config.manifestPath .manifest) := by
      rw [removeIfSafe]
      split_ifs
      · exact (reports_removeFile _).discard
      · exact reports_pure trivial
    refine hremove.bind fun _ _ => (reports_reopenLocked aof hpath).bind fun r hr => ?_
    obtain ⟨status, aof⟩ := r
    simp only
    split_ifs
    · exact reports_pure hr
    · exact reports_pure messageOneLine_ok

/-- **A rewrite that fails is reported on one line**, at whichever call it does. -/
theorem reports_rewrite {env : Env} (h : LogPathOneLine env) (order : IterationOrder)
    (now : TimePoint) (aof : Aof) (storage : StorageEngine) :
    Reports OneLine (fun r => MessageOneLine r.1) (rewrite env order now aof storage) := by
  simp only [rewrite]
  split_ifs
  · exact reports_pure (messageOneLine_invalidArgument (by decide))
  · exact reports_pure (messageOneLine_invalidArgument (by decide))
  have hparent : ∀ reason, OneLine reason → OneLine (ascii "failed to create directory " ++
      env.parentPath env.config.persistence.aofPath ++ ascii ": " ++ reason) := fun reason hreason =>
    (((by decide : OneLine (ascii "failed to create directory ")).append h.parent).append
      (by decide : OneLine (ascii ": "))).append hreason
  refine (reports_ensureParentDir hparent).bind fun status hstatus => ?_
  split_ifs
  · exact reports_pure hstatus
  refine reports_call.bind fun r hr => ?_
  cases r with
  | error reason =>
    exact reports_pure ((by decide : OneLine (ascii "failed to open AOF rewrite temp file: ")).append
      (hr reason rfl))
  | ok tmpFd =>
    refine (reports_writeRecords _ _).bind fun r hr => ?_
    cases r with
    | error reason => exact (reports_removeFile _).bind fun _ _ => reports_pure (hr reason rfl)
    | ok _ =>
      have htmp : OneLine (rewriteTmpPath env.config.persistence.aofPath env.pid) :=
        ((h.path.append (by decide : OneLine (ascii ".rewrite."))).append
          (oneLine_print env.pid)).append (by decide)
      refine (reports_syncAndClose htmp).bind fun status hstatus => ?_
      split_ifs
      · exact (reports_removeFile _).bind fun _ _ => reports_pure hstatus
      · exact (reports_installRewrite h.path aof).bind fun r hr => reports_pure hr

end Aof

/-! ## Snapshots -/

namespace SnapshotStore

/-- A file that cannot be put in its place is reported with the reason. -/
theorem reports_install (tmp name : FileName) {message : Bytes} (hmessage : OneLine message) :
    Reports OneLine MessageOneLine (install tmp name message) := by
  refine (reports_renameFile _ _).bind fun r hr => ?_
  cases r with
  | ok _ => exact reports_pure messageOneLine_ok
  | error reason =>
    exact (reports_removeFile _).discard.bind fun _ _ => reports_pure (hmessage.append (hr reason rfl))

/-- The message about a directory is on one line if its reason is. -/
theorem oneLine_directory (reason : Bytes) (h : OneLine reason) :
    OneLine (ascii "failed to create snapshot directory: " ++ reason) :=
  (by decide : OneLine (ascii "failed to create snapshot directory: ")).append h

/-- A snapshot that cannot be written is reported on one line. -/
theorem reports_saveSnapshotFile (env : Env) (store : SnapshotStore) (order : IterationOrder)
    (now : TimePoint) (storage : StorageEngine) :
    Reports OneLine (fun r => MessageOneLine r.1)
      (saveSnapshotFile env store order now storage) := by
  simp only [saveSnapshotFile]
  split_ifs
  · exact reports_pure (messageOneLine_invalidArgument (by decide))
  refine (reports_ensureParentDir oneLine_directory).bind fun status hstatus => ?_
  split_ifs
  · exact reports_pure hstatus
  refine reports_call.bind fun r hr => ?_
  cases r with
  | error _ => exact reports_pure (messageOneLine_ioError (by decide))
  | ok fd =>
    refine (reports_streamRecords _ _).bind fun written _ => ?_
    split_ifs
    · exact reports_pure (messageOneLine_ioError (by decide))
    · refine reports_touch.bind fun r _ => ?_
      cases r with
      | error _ => exact reports_pure (messageOneLine_ioError (by decide))
      | ok _ => exact (reports_install _ _ (by decide)).bind fun status hstatus => reports_pure hstatus

/-- A manifest that cannot be written is reported on one line. -/
theorem reports_writeManifest (env : Env) (store : SnapshotStore) (manifest : Manifest) :
    Reports OneLine MessageOneLine (writeManifest env store manifest) := by
  simp only [writeManifest]
  split_ifs
  · exact reports_pure (messageOneLine_invalidArgument (by decide))
  refine (reports_ensureParentDir oneLine_directory).bind fun status hstatus => ?_
  split_ifs
  · exact reports_pure hstatus
  refine reports_call.bind fun r hr => ?_
  cases r with
  | error _ => exact reports_pure (messageOneLine_ioError (by decide))
  | ok fd =>
    refine reports_streamWrite.bind fun written _ => ?_
    split_ifs
    · exact reports_pure (messageOneLine_ioError (by decide))
    · refine reports_touch.bind fun r _ => ?_
      cases r with
      | error _ => exact reports_pure (messageOneLine_ioError (by decide))
      | ok _ => exact reports_install _ _ (by decide)

/-- **A `SAVE` that fails is reported on one line**, at whichever call it does. -/
theorem reports_save {env : Env} (h : LogPathOneLine env) (store : SnapshotStore)
    (order : IterationOrder) (now : TimePoint) (storage : StorageEngine) (aof : Option Aof) :
    Reports OneLine (fun r => MessageOneLine r.1) (save env store order now storage aof) := by
  rw [save]
  split
  · next aof _ =>
    refine (Aof.reports_sync h aof).bind fun status hstatus => ?_
    split_ifs
    · exact reports_pure hstatus
    refine (reports_saveSnapshotFile env store order now storage).bind fun r hr => ?_
    obtain ⟨status, storage⟩ := r
    simp only
    split_ifs
    · exact reports_pure hr
    · exact (reports_writeManifest env store _).bind fun status hstatus => reports_pure hstatus
  · refine (reports_saveSnapshotFile env store order now storage).bind fun r hr => ?_
    obtain ⟨status, storage⟩ := r
    simp only
    split_ifs
    · rw [removeIfSafe]
      split_ifs
      · exact (reports_removeFile _).discard.bind fun _ _ => reports_pure hr
      · exact reports_pure hr
    · exact reports_pure hr

end SnapshotStore

end VeloxDb
