import VeloxDb.Recovery.Checkpoint

/-!
# What a snapshot and a rewritten log decode to

Both files hold the same records, in some order, and both loaders accept them on a fresh engine:
every entry was stored in one engine at once, so the memory limit admits them all. What is left at
`T` are the entries without a deadline, and those whose deadline, cut to milliseconds, is after `T`.

The records contain more than keys and values: the names of the commands and the deadlines in
decimal are bulk strings too, so they are subject to `max_value_size`.
-/

namespace VeloxDb

open Resp Decimal Util FileProgram Recovery

/-- What is left of a saved item at `T`: its deadline is cut to milliseconds. -/
def Item.atMillis (T : ℤ) (x : Item) : Option Item :=
  match x.expiry with
  | none => some x
  | some d =>
    if T < unixMs d * nanosPerMilli then some ⟨x.value, some (unixMs d * nanosPerMilli)⟩ else none

/-- What is read back is the item in whole milliseconds, unless it has expired. -/
theorem Item.reloaded_eq_atMillis {x : Item} (hx : ∀ d, x.expiry = some d → InI64 d) (T : ℤ) :
    x.reloaded T = x.atMillis T := by
  obtain ⟨value, expiry⟩ := x
  cases expiry with
  | none => rfl
  | some d =>
    simp only [reloaded, atMillis, StorageEngine.expiredAt, timepointFromUnixMs_unixMs (hx d rfl)]
    by_cases hT : T < unixMs d * nanosPerMilli
    · rw [if_pos hT, if_neg (not_le.mpr hT), Option.map_some]
    · rw [if_neg hT, if_pos (not_lt.mp hT)]

/-- The records of the live entries, in the order of the shards. -/
def liveRecords (L : StorageEngine) (now : TimePoint) : List (List Bytes) :=
  (L.snapshot now).1.flatMap snapshotRecords

/-- The live entries are within the limits of the parser when they are written as records: every
bulk string, the length of the array and the length of the whole file. -/
structure Encodable (protocol : ProtocolConfig) (L : StorageEngine) (now : TimePoint) : Prop where
  elements : 3 ≤ protocol.maxArrayElements
  bulk : ∀ record ∈ liveRecords L now, ∀ arg ∈ record, arg.length ≤ protocol.maxValueSize
  request : ((liveRecords L now).flatMap encodeCommand).length ≤ protocol.maxRequestBytes
  size : ((liveRecords L now).flatMap encodeCommand).length ≤ maxSize

namespace Encodable

variable {protocol : ProtocolConfig} {L : StorageEngine} {now : TimePoint}

/-- In another order the records are the same. -/
theorem perm_liveRecords (L : StorageEngine) (now : TimePoint) (order : IterationOrder) :
    ((order.arrange (L.snapshot now).1).flatMap snapshotRecords).Perm (liveRecords L now) :=
  (order.perm _).flatMap_right _

/-- A snapshot is as long in any order. -/
theorem length_snapshotText (L : StorageEngine) (now : TimePoint) (order : IterationOrder) :
    (snapshotText order now L).length = ((liveRecords L now).flatMap encodeCommand).length :=
  ((perm_liveRecords L now order).flatMap_right _).length_eq

/-- The records of a snapshot are short. -/
theorem length_le_three {record : List Bytes} (h : record ∈ liveRecords L now) : record.length ≤ 3 := by
  obtain ⟨entry, -, hrecord⟩ := List.mem_flatMap.mp h
  rw [snapshotRecords, List.mem_cons, Option.mem_toList, Option.map_eq_some_iff] at hrecord
  rcases hrecord with rfl | ⟨ms, -, rfl⟩ <;> rfl

/-- The records of a snapshot are within the limits, in any order. -/
theorem within (h : Encodable protocol L now) (order : IterationOrder) :
    ∀ record ∈ (order.arrange (L.snapshot now).1).flatMap snapshotRecords,
      WithinLimits (parserOptionsFromConfig protocol) record := by
  intro record hrecord
  have hmem := (perm_liveRecords L now order).mem_iff.mp hrecord
  have hlen := length_encodeCommand_le_of_mem hmem
  have hthree := length_le_three hmem
  refine ⟨hthree.trans h.elements, h.bulk record hmem, hlen.trans h.request, ?_, fun arg harg => ?_⟩
  · exact hthree.trans (by simp [maxSize])
  · exact (length_le_of_mem_encodeCommand harg).trans (hlen.trans h.size)

end Encodable

/-- **Snapshots and rewritten logs decode to the live keyspace.** From any engine that can be
reached, in any order of the entries: the file that `save_snapshot_file` has written, loaded into a
fresh engine, and the file that `Aof::rewrite` has written, replayed on one, give the same keyspace,
that of the saved entries that are left at the time of the load. -/
theorem saved_files_decode {env : Env} {L L₁ L₂ : StorageEngine} {now : TimePoint}
    (hreach : L.Reachable (freshStorage env).setup) (henc : Encodable env.config.protocol L now)
    {order₁ order₂ : IterationOrder} {w₁ w₁' w₂ w₂' : World FileName} {status₁ status₂ : Status}
    {aof aof' : Aof}
    (hsave : SnapshotStore.saveSnapshotFile env (.ofConfig env.config) order₁ now L w₁
      = .ok (status₁, L₁) w₁') (hsaved : status₁.isOk = true)
    (hrewrite : Aof.rewrite env order₂ now aof L w₂ = .ok (status₂, aof', L₂) w₂')
    (hrewritten : status₂.isOk = true) (T : TimePoint) :
    ∃ P Q,
      (SnapshotStore.ofConfig env.config).load T (w₁'.fs.read .snapshot) (freshStorage env) = (.ok, P) ∧
      (∀ order fs, replayFile env.config.persistence.aofPath (w₂'.fs.read .aof) env.config.protocol
          (replayCommand env order T) 0 (replayContext env (freshStorage env), fs)
        = ({ commands := (liveRecords L now).length }, replayContext env Q, fs)) ∧
      P.keyspace = Q.keyspace ∧
      P.keyspace = fun k => (L.keyspace.visible now k).bind (Item.atMillis T) := by
  have hwf := hreach.wf
  have hkeys : ∀ K : Keyspace, K = (fun k => (L.keyspace.visible now k).bind (Item.reloaded T)) →
      K = fun k => (L.keyspace.visible now k).bind (Item.atMillis T) := by
    rintro K rfl
    funext k
    cases hv : L.keyspace.visible now k with
    | none => rfl
    | some x =>
      have hx := (Keyspace.visible_eq_some.mp hv).1
      exact Item.reloaded_eq_atMillis (hreach.representable k x hx) T
  -- the files hold the records of the live entries
  obtain ⟨-, hpath, -, hsnapshot⟩ : L₁ = _ ∧ _ ∧ _ ∧ _ := by
    rcases (SnapshotStore.spec_saveSnapshotFile order₁ now L).of_ok hsave with ⟨-, hs | hs⟩
    · exact hs.2
    · rw [hs.1] at hsaved
      cases hsaved
  obtain ⟨hen, hsafe⟩ := Aof.safe_of_rewrite hrewrite hrewritten
  have hlog := ((Aof.spec_rewrite order₂ now aof L hen hsafe).of_ok hrewrite).2.2.2 hrewritten
  obtain ⟨P, hP, -, hload, -⟩ := reload_spec hwf hreach.representable order₁ now (wf_freshStorage env)
    hreach.setup_eq.symm (keyspace_freshStorage env) T
  obtain ⟨Q, hQ, hreplay, -⟩ := reload_spec hwf hreach.representable order₂ now (wf_freshStorage env)
    hreach.setup_eq.symm (keyspace_freshStorage env) T
  refine ⟨P, Q, ?_, fun order fs => ?_, hP.keyspace.trans hQ.keyspace.symm, hkeys _ hP.keyspace⟩
  · rw [hsnapshot]
    refine SnapshotStore.load_of_feed hpath ?_ ?_ (hload 0)
    · rw [SnapshotStore.ofConfig_protocol]
      exact henc.within order₁
    · rw [SnapshotStore.ofConfig_protocol]
      exact (Encodable.length_snapshotText L now order₁).trans_le henc.request
  · rw [hlog, ← (Encodable.perm_liveRecords L now order₂).length_eq,
      ← Nat.zero_add (List.length _)]
    exact replayFile_of_feed hsafe (Nat.zero_le _) rfl (henc.within order₂)
      ((Encodable.length_snapshotText L now order₂).trans_le henc.request)
      (feed_of_applyRecords (hreplay env) fs 0)

/-- An engine with one entry, that has a deadline. -/
def oneEntry (env : Env) : StorageEngine :=
  ((freshStorage env).apply 0 (.set (ascii "k") (ascii "v") (some 5) .always)).2

/-- It comes from one call. -/
theorem oneEntry_reachable (env : Env) : (oneEntry env).Reachable (freshStorage env).setup :=
  .op 0 (.set (ascii "k") (ascii "v") (some 5) .always) trivial .new

/-- An environment whose values have at most this length. -/
def sizedEnv (maxValueSize : ℕ) : Env :=
  .plain { storage := { maxMemoryBytes := 0 }, protocol := { maxValueSize } }

set_option maxRecDepth 100000 in
theorem one_entry_decodes :
    ∃ L₁ L₂ aof w₁ w₂,
      SnapshotStore.saveSnapshotFile (sizedEnv 9) (.ofConfig (sizedEnv 9).config) .listed 0
        (oneEntry (sizedEnv 9)) ⟨.empty, []⟩ = .ok (.ok, L₁) w₁ ∧
      Aof.rewrite (sizedEnv 9) .listed 0 {} (oneEntry (sizedEnv 9)) ⟨.empty, []⟩ = .ok (.ok, aof, L₂) w₂ ∧
      ∃ P, (SnapshotStore.ofConfig (sizedEnv 9).config).load 0 (w₁.fs.read .snapshot)
          (freshStorage (sizedEnv 9)) = (.ok, P) ∧
        P.keyspace = fun k =>
          ((oneEntry (sizedEnv 9)).keyspace.visible 0 k).bind (Item.atMillis 0) := by
  have henc : Encodable (sizedEnv 9).config.protocol (oneEntry (sizedEnv 9)) 0 :=
    ⟨by decide, by decide +kernel, by decide +kernel, by decide +kernel⟩
  obtain ⟨L₁, w₁, hsave⟩ : ∃ L₁ w₁, SnapshotStore.saveSnapshotFile (sizedEnv 9)
      (.ofConfig (sizedEnv 9).config) .listed 0 (oneEntry (sizedEnv 9)) ⟨.empty, []⟩
        = .ok (.ok, L₁) w₁ := ⟨_, _, rfl⟩
  obtain ⟨aof, L₂, w₂, hrewrite⟩ : ∃ aof L₂ w₂, Aof.rewrite (sizedEnv 9) .listed 0 {}
      (oneEntry (sizedEnv 9)) ⟨.empty, []⟩ = .ok (.ok, aof, L₂) w₂ := ⟨_, _, _, rfl⟩
  obtain ⟨P, -, hload, -, -, hkeyspace⟩ :=
    saved_files_decode (oneEntry_reachable _) henc hsave rfl hrewrite rfl 0
  exact ⟨L₁, L₂, aof, w₁, w₂, hsave, hrewrite, P, hload, hkeyspace⟩

set_option maxRecDepth 100000 in
/-- With `max_value_size` at 2, the key and the value of the entry are short enough, but the name of
the command is not: the snapshot that was written is refused. -/
theorem one_entry_refused :
    (oneEntry (sizedEnv 2)).Reachable (freshStorage (sizedEnv 2)).setup ∧
      (∀ entry ∈ ((oneEntry (sizedEnv 2)).snapshot 0).1,
        entry.key.length ≤ (sizedEnv 2).config.protocol.maxValueSize ∧
          entry.value.length ≤ (sizedEnv 2).config.protocol.maxValueSize) ∧
      3 ≤ (sizedEnv 2).config.protocol.maxArrayElements ∧
      ((liveRecords (oneEntry (sizedEnv 2)) 0).flatMap encodeCommand).length
        ≤ (sizedEnv 2).config.protocol.maxRequestBytes ∧
      ∃ L₁ w, SnapshotStore.saveSnapshotFile (sizedEnv 2) (.ofConfig (sizedEnv 2).config) .listed 0
          (oneEntry (sizedEnv 2)) ⟨.empty, []⟩ = .ok (.ok, L₁) w ∧
        ((SnapshotStore.ofConfig (sizedEnv 2).config).load 0 (w.fs.read .snapshot)
          (freshStorage (sizedEnv 2))).1.isOk = false :=
  ⟨oneEntry_reachable _, by decide +kernel, by decide, by decide +kernel, _, _, rfl, by decide +kernel⟩

end VeloxDb
