import VeloxDb.Recovery.TornTail

/-!
# Appends that fail

The process goes on after an append that has failed, and the next record is written where the last
one stopped. What the failed one left in the file depends on the answers of the kernel: nothing, if
the first answer was an error; the whole record, if only the `fsync` behind it failed; or a part of
it. Only a part does harm. It counts neither for `current_size` nor as a record, and the replay
reads the records behind it together with it.
-/

namespace VeloxDb

open Resp FileProgram FileSystem

namespace Aof

/-- A call of `Aof::append`, and what the kernel answers to it. -/
structure AppendCall where
  record : List Bytes
  answers : List CallOutcome

namespace AppendCall

/-- The number of bytes of the record that reach the file. -/
def taken (a : AppendCall) : ℕ := FileProgram.taken a.answers (encodeCommand a.record).length

/-- Some bytes of the record reach the file, and some do not. -/
def Torn (a : AppendCall) : Prop := 0 < a.taken ∧ a.taken < (encodeCommand a.record).length

instance (a : AppendCall) : Decidable a.Torn := inferInstanceAs (Decidable (_ ∧ _))

end AppendCall

/-- A process that appends, its files, and the commands whose append returned ok. -/
structure Appender where
  aof : Aof
  fs : FileSystem FileName
  acknowledged : List (List Bytes) := []

namespace Appender

/-- One call, unless the process dies in it. -/
def step (config : PersistenceConfig) (s : Appender) (a : AppendCall) : Option Appender :=
  match s.aof.append config a.record ⟨s.fs, a.answers⟩ with
  | .ok (status, aof) w => some
      ⟨aof, w.fs, if status.isOk then s.acknowledged ++ [a.record] else s.acknowledged⟩
  | .error _ _ => none

/-- One call after the other, whatever comes of them. -/
def run (config : PersistenceConfig) (s : Appender) (calls : List AppendCall) : Option Appender :=
  calls.foldlM (step config) s

/-- `current_size` is the length of the file. -/
def SizeExact (s : Appender) : Prop :=
  (s.fs.read .aof).map List.length = some s.aof.currentSize

end Appender

section Cases

variable {config : PersistenceConfig} {s s' : Appender} {a : AppendCall} {log : Bytes}

/-- What `write_bytes_locked` can return with. -/
theorem writeBytesLocked_cases {aof aof' : Aof} {bytes : Bytes} {status : Status} {w w' : World FileName}
    (h : aof.Attached w.fs log) (hrun : aof.writeBytesLocked bytes w = .ok (status, aof') w') :
    (status = .ok ∧ FileProgram.taken w.plan bytes.length = bytes.length ∧
      aof'.Attached w'.fs (log ++ bytes)) ∨
    (status.isOk = false ∧ aof' = aof ∧ FileProgram.taken w.plan bytes.length < bytes.length ∧
      w'.fs.dir = w.fs.dir ∧
      w'.fs.read .aof = some (log ++ bytes.take (FileProgram.taken w.plan bytes.length))) := by
  obtain ⟨i, hfd, hdir⟩ := h.fd
  simp only [writeBytesLocked, hfd] at hrun
  obtain ⟨written, w₁, hwrite, hrun⟩ := bind_eq_ok.mp hrun
  have hcases := writeLoop_cases i w.plan bytes w.fs
  rw [show writeLoop i w.plan bytes w.fs = _ from hwrite] at hcases
  cases written with
  | ok u =>
    cases hrun
    obtain ⟨hfs, htaken, -⟩ := hcases
    obtain ⟨-, hatt⟩ := h.append hfd bytes
    rw [hfd, ← hfs] at hatt
    exact .inl ⟨rfl, htaken, hatt⟩
  | error reason =>
    cases hrun
    obtain ⟨-, htaken, hfs⟩ := hcases
    refine .inr ⟨rfl, rfl, htaken, ?_, ?_⟩
    · rw [hfs, dir_append]
    · rw [hfs, read_append_self _ hdir h.contents]

/-- What `append` can return with: the record is in the file, acknowledged or not, or a part of it.
-/
theorem Appender.step_cases (hen : config.aofEnabled = true) (h : s.aof.Attached s.fs log)
    (hstep : s.step config a = some s') :
    (¬ a.Torn ∧ s'.aof.Attached s'.fs (log ++ encodeCommand a.record) ∧
      (s'.acknowledged = s.acknowledged ++ [a.record] ∨ s'.acknowledged = s.acknowledged)) ∨
    (a.taken < (encodeCommand a.record).length ∧ s'.aof.fd = s.aof.fd ∧
      s'.aof.currentSize = s.aof.currentSize ∧ s'.fs.dir = s.fs.dir ∧
      s'.fs.read .aof = some (log ++ (encodeCommand a.record).take a.taken) ∧
      s'.acknowledged = s.acknowledged) := by
  unfold Appender.step at hstep
  cases hrun : s.aof.append config a.record ⟨s.fs, a.answers⟩ with
  | error u w => simp [hrun] at hstep
  | ok r w =>
    obtain ⟨status, aof'⟩ := r
    rw [hrun, Option.some.injEq] at hstep
    subst hstep
    simp only [Aof.append, h.enabled hen, Bool.not_true, Bool.false_eq_true, if_false] at hrun
    obtain ⟨⟨status₁, aof₁⟩, w₁, hbytes, hrun⟩ := bind_eq_ok.mp hrun
    rcases writeBytesLocked_cases h hbytes with
      ⟨rfl, htaken, hatt⟩ | ⟨herr, rfl, htaken, hdir, hread⟩
    · -- the flags and the `fsync` do not matter for what the log holds
      have hkept : w.fs = w₁.fs ∧ aof'.fd = aof₁.fd ∧ aof'.currentSize = aof₁.currentSize := by
        simp only [Status.isOk_ok, Bool.not_true, Bool.false_eq_true, if_false] at hrun
        split_ifs at hrun
        · obtain ⟨r, w₂, htouch, hrun⟩ := bind_eq_ok.mp hrun
          have hfs := ((touch_idle w₁).of_ok htouch).1
          cases r <;> cases hrun <;> exact ⟨hfs, rfl, rfl⟩
        · cases hrun
          exact ⟨rfl, rfl, rfl⟩
      obtain ⟨hfs, hfd, hsize⟩ := hkept
      refine .inl ⟨fun htorn => absurd htorn.2 (by rw [AppendCall.taken, htaken]; omega), ?_, ?_⟩
      · refine ⟨?_, ?_, hsize.trans hatt.size⟩
        · rw [hfd, hfs]
          exact hatt.fd
        · rw [hfs]
          exact hatt.contents
      · cases status.isOk <;> simp
    · simp only [herr, Bool.not_false, if_true] at hrun
      cases hrun
      refine .inr ⟨htaken, rfl, rfl, hdir, hread, ?_⟩
      simp [herr]

/-- A call that tears nothing leaves whole records, and loses none that it acknowledges. -/
theorem Appender.step_whole (hen : config.aofEnabled = true) (h : s.aof.Attached s.fs log)
    (hnot : ¬ a.Torn) (hstep : s.step config a = some s') :
    ∃ acked more, s'.aof.Attached s'.fs (log ++ more.flatMap encodeCommand) ∧
      s'.acknowledged = s.acknowledged ++ acked ∧ acked.Sublist more ∧ more.Sublist [a.record] := by
  rcases step_cases hen h hstep with ⟨-, hatt, hack | hack⟩ | ⟨hlt, hfd, hsize, hdir, hread, hack⟩
  · exact ⟨[a.record], [a.record], by simpa using hatt, hack, .refl _, .refl _⟩
  · exact ⟨[], [a.record], by simpa using hatt, by simpa using hack, List.nil_sublist _, .refl _⟩
  · have hzero : a.taken = 0 := by
      rw [AppendCall.Torn] at hnot
      omega
    refine ⟨[], [], ⟨?_, ?_, ?_⟩, by simpa using hack, .refl _, List.nil_sublist _⟩
    · rw [hfd, hdir]
      exact h.fd
    · simpa [hzero] using hread
    · simpa using hsize.trans h.size

/-- A torn record does not count for `current_size`. -/
theorem Appender.step_torn (hen : config.aofEnabled = true) (h : s.aof.Attached s.fs log)
    (htorn : a.Torn) (hstep : s.step config a = some s') : ¬ s'.SizeExact := by
  rcases step_cases hen h hstep with ⟨hnot, -⟩ | ⟨hlt, -, hsize, -, hread, -⟩
  · exact absurd htorn hnot
  · have hpos := htorn.1
    rw [SizeExact, hread, Option.map_some, Option.some.injEq, hsize, h.size, List.length_append,
      List.length_take]
    omega

theorem Appender.run_cons {calls : List AppendCall} :
    s.run config (a :: calls) = some s' ↔
      ∃ s₁, s.step config a = some s₁ ∧ s₁.run config calls = some s' := by
  simp [run, Option.bind_eq_some_iff]

/-- Without torn records the log holds whole records, among them all that were
acknowledged. -/
theorem Appender.run_whole (hen : config.aofEnabled = true) {calls : List AppendCall}
    (h : s.aof.Attached s.fs log) (hnot : ∀ a ∈ calls, ¬ a.Torn) (hrun : s.run config calls = some s') :
    ∃ acked more, s'.aof.Attached s'.fs (log ++ more.flatMap encodeCommand) ∧
      s'.acknowledged = s.acknowledged ++ acked ∧ acked.Sublist more ∧
      more.Sublist (calls.map AppendCall.record) := by
  induction calls generalizing s log with
  | nil =>
    cases hrun
    exact ⟨[], [], by simpa using h, by simp, .refl _, .refl _⟩
  | cons a calls ih =>
    obtain ⟨s₁, hstep, hrest⟩ := run_cons.mp hrun
    obtain ⟨acked₁, more₁, hatt₁, hack₁, hsub₁, hfrom₁⟩ := step_whole hen h (hnot a (by simp)) hstep
    obtain ⟨acked, more, hatt, hack, hsub, hfrom⟩ :=
      ih hatt₁ (fun b hb => hnot b (by simp [hb])) hrest
    refine ⟨acked₁ ++ acked, more₁ ++ more, ?_, ?_, hsub₁.append hsub, hfrom₁.append hfrom⟩
    · simpa using hatt
    · rw [hack, hack₁, List.append_assoc]

/-- The size is exact at every point between the calls exactly if nothing is torn. -/
theorem Appender.sizeExact_iff (hen : config.aofEnabled = true) {calls : List AppendCall}
    (h : s.aof.Attached s.fs log) (hrun : s.run config calls = some s') :
    (∀ before s₁, before <+: calls → s.run config before = some s₁ → s₁.SizeExact) ↔
      ∀ a ∈ calls, ¬ a.Torn := by
  constructor
  · intro hexact
    induction calls generalizing s log with
    | nil => simp
    | cons a calls ih =>
      obtain ⟨s₁, hstep, hrest⟩ := run_cons.mp hrun
      have hexact₁ : s₁.SizeExact := hexact [a] s₁ (by simp) (run_cons.mpr ⟨s₁, hstep, rfl⟩)
      have hnot : ¬ a.Torn := fun htorn => step_torn hen h htorn hstep hexact₁
      obtain ⟨-, more, hatt, -⟩ := step_whole hen h hnot hstep
      refine List.forall_mem_cons.mpr ⟨hnot, ih hatt hrest fun before s₂ hbefore hrun₂ => ?_⟩
      exact hexact (a :: before) s₂ (List.cons_prefix_cons.mpr ⟨rfl, hbefore⟩)
        (run_cons.mpr ⟨s₁, hstep, hrun₂⟩)
  · intro hnot before s₁ hbefore hrun₁
    obtain ⟨-, more, hatt, -⟩ :=
      run_whole hen h (fun a ha => hnot a (hbefore.subset ha)) hrun₁
    rw [SizeExact, hatt.contents, hatt.size]
    rfl

end Cases

end Aof

/-! ## The replay of the log -/

section Replay

variable {env : Env}

/-- A log of whole records is replayed, record by record. -/
theorem replaysExactly_of_read {fs : FileSystem FileName} {records : List (List Bytes)}
    (hsafe : pathIsSafe env.config.persistence.aofPath = true)
    (hread : fs.read .aof = some (records.flatMap encodeCommand))
    (hlim : ∀ record ∈ records, WithinLimits (parserOptionsFromConfig env.config.protocol) record)
    (hlen : (records.flatMap encodeCommand).length ≤ env.config.protocol.maxRequestBytes) :
    ReplaysExactly env fs records := by
  have hfeed : feed recordCommand records [] 0 = .inl (records, records.length) := by
    rw [feed_of_isOk fun _ _ => rfl, foldl_recordCommand, List.nil_append, Nat.zero_add]
  rw [ReplaysExactly, hread,
    replayFile_of_feed hsafe (Nat.zero_le _) List.drop_zero hlim hlen hfeed]
  exact ⟨rfl, rfl⟩

/-- The calls have not spoilt the log that held `records`: it is replayed with every command that
was acknowledged, and `current_size` was its length all the time. -/
structure LogKept (env : Env) (records : List (List Bytes)) (s : Aof.Appender)
    (calls : List Aof.AppendCall) (s' : Aof.Appender) : Prop where
  replayed : ∃ seen, ReplaysExactly env s'.fs seen ∧ (records ++ s'.acknowledged).Sublist seen
  sizes : ∀ before s₁, before <+: calls → s.run env.config.persistence before = some s₁ → s₁.SizeExact

/-- **A failed append does not spoil the rest of the log**, unless it leaves a part of its record in
the file. -/
theorem log_kept_iff (hen : env.config.persistence.aofEnabled = true)
    (hsafe : pathIsSafe env.config.persistence.aofPath = true) {aof : Aof} {fs : FileSystem FileName}
    {records : List (List Bytes)} (h : aof.Attached fs (records.flatMap encodeCommand))
    {calls : List Aof.AppendCall} {s' : Aof.Appender}
    (hrun : Aof.Appender.run env.config.persistence ⟨aof, fs, []⟩ calls = some s')
    (hlim : ∀ record ∈ records ++ calls.map Aof.AppendCall.record,
      WithinLimits (parserOptionsFromConfig env.config.protocol) record)
    (hlen : ((s'.fs.read .aof).getD []).length ≤ env.config.protocol.maxRequestBytes) :
    LogKept env records ⟨aof, fs, []⟩ calls s' ↔ ∀ a ∈ calls, ¬ a.Torn := by
  have hsizes := Aof.Appender.sizeExact_iff (s := ⟨aof, fs, []⟩) hen h hrun
  refine ⟨fun hkept => hsizes.mp hkept.sizes, fun hnot => ⟨?_, hsizes.mpr hnot⟩⟩
  obtain ⟨acked, more, hatt, hack, hsub, hfrom⟩ :=
    Aof.Appender.run_whole (s := ⟨aof, fs, []⟩) hen h hnot hrun
  have hread : s'.fs.read .aof = some ((records ++ more).flatMap encodeCommand) := by
    rw [hatt.contents, List.flatMap_append]
  rw [hread, Option.getD_some] at hlen
  refine ⟨records ++ more, replaysExactly_of_read hsafe hread (fun record hrecord => ?_) hlen, ?_⟩
  · exact hlim record (((List.Sublist.refl records).append hfrom).subset hrecord)
  · rw [hack]
    exact (List.Sublist.refl records).append hsub

end Replay

/-- The process that has just opened an empty log. -/
def freshAppender : Aof.Appender := ⟨{ fd := some 0 }, (FileSystem.empty.create FileName.aof).1, []⟩

/-- `SET k v` with these answers of the kernel, then `PING` in two writes. -/
def setThenPing (answers : List CallOutcome) : List Aof.AppendCall :=
  [⟨["SET", "k", "v"].map ascii, answers⟩, ⟨[ascii "PING"], [.short 3]⟩]

set_option maxRecDepth 100000 in
/-- The first write fails before it has written anything. -/
theorem log_kept_behind_full_disk : ∃ s',
    freshAppender.run {} (setThenPing [.interrupted, .fail (ascii "no space")]) = some s' ∧
      s'.acknowledged = [[ascii "PING"]] ∧
      LogKept (.plain {}) [] freshAppender
        (setThenPing [.interrupted, .fail (ascii "no space")]) s' := by
  have hatt : freshAppender.aof.Attached freshAppender.fs [] := ⟨⟨0, rfl, rfl⟩, rfl, rfl⟩
  refine ⟨_, rfl, rfl, (log_kept_iff rfl (by decide) hatt rfl ?_ (by decide)).mpr ?_⟩
  · decide
  · decide

set_option maxRecDepth 100000 in
/-- The first write fails in the middle of its record. The second command is acknowledged, and the
log can no longer be replayed. -/
theorem torn_append_stops_replay : ∃ s',
    freshAppender.run {} (setThenPing [.short 10, .fail (ascii "no space")]) = some s' ∧
      s'.acknowledged = [[ascii "PING"]] ∧
      (replayFile (Env.plain {}).config.persistence.aofPath (s'.fs.read .aof) {} recordCommand 0 []).1.status
        = .protocolError (ascii "AOF replay failed: malformed bulk string CRLF") ∧
      (s'.fs.read .aof).map List.length = some (s'.aof.currentSize + 10) :=
  ⟨_, rfl, by decide +kernel⟩

end VeloxDb
