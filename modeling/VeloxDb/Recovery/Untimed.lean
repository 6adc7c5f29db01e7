import VeloxDb.Recovery.Restart

/-!
# Replay without deadlines

Where no deadlines are set, a replay does not depend on the clock. `Replays env records K K'` says
that the records turn every engine with keyspace `K` into one with keyspace `K'`, whenever they are
replayed. A write of the live engine does so with its record, and the text of a snapshot or of a
rewritten log does so from the empty keyspace.
-/

namespace VeloxDb

open Resp Util Recovery

/-! ## Keyspaces without deadlines -/

/-- No item has a deadline. -/
def Keyspace.Untimed (K : Keyspace) : Prop := ∀ k x, K k = some x → x.expiry = none

namespace Keyspace.Untimed

variable {K : Keyspace} {L L' : StorageEngine} {now : TimePoint}

/-- Nothing expires. -/
theorem expired_eq_false (h : K.Untimed) {k : Bytes} {x : Item} (hx : K k = some x) (t : TimePoint) :
    x.expired t = false := by
  simp [Item.expired, h k x hx]

/-- Everything is visible, at any time. -/
theorem visible_eq (h : K.Untimed) (t : TimePoint) : K.visible t = K := by
  funext k
  cases hk : K k with
  | none => exact visible_of_eq_none hk
  | some x => exact visible_eq_some.mpr ⟨hk, h.expired_eq_false hk t⟩

/-- No deadline passes in between. -/
theorem pastBy (h : K.Untimed) (now T : TimePoint) : K.PastBy now T := by
  intro k x hx hexp
  rw [h.expired_eq_false hx] at hexp
  cases hexp

/-- Nothing is reclaimed. -/
theorem reclaimed (h : L.keyspace.Untimed) (hre : StorageEngine.Reclaimed now L L') :
    L'.keyspace = L.keyspace :=
  hre.reclaims.eq_of_fresh fun _ _ hx => h.expired_eq_false hx now

/-- A command that sets no deadline leaves none. -/
theorem writes (h : L.keyspace.Untimed) {keys : List Bytes} {b : Bool} (hb : b = false)
    (hw : Commands.Writes L L' keys (b = true)) : L'.keyspace.Untimed := by
  intro k x hx
  rcases hw.items k x hx with hx' | ⟨-, hnone | ⟨hset, -⟩⟩
  · exact h k x hx'
  · exact hnone
  · rw [hb] at hset
    cases hset

/-- Every key endures. -/
theorem keyEndures (h : L.keyspace.Untimed) (T m now : ℤ) (key : Bytes) :
    KeyEndures T m now L key := by
  intro y hy d hd
  rw [h key y (visible_eq_some.mp hy).1] at hd
  cases hd

/-- Commands that set no deadline are safe. -/
theorem safe (h : L.keyspace.Untimed) (T : ℤ) {name : CommandName} {args : List Bytes}
    (huntimed : Commands.setsExpiry name args = false) : Safe T 0 now L name args := by
  unfold Safe
  split
  · next rest =>
    intro o ho
    rw [Commands.setsExpiry_set ho] at huntimed
    exact .inl (by simpa using huntimed)
  all_goals first | exact h.keyEndures _ _ _ _ | trivial

end Keyspace.Untimed

/-! ## Records -/

/-- Replaying `records`, at any time, turns every engine with keyspace `K` into one with `K'`. -/
def Replays (env : Env) (records : List (List Bytes)) (K K' : Keyspace) : Prop :=
  ∀ T P, P.WF → P.setup = (freshStorage env).setup → P.keyspace = K →
    ∃ P', applyRecords env T P records = some P' ∧ StorageEngine.Becomes P P' K'

section Records

variable {env : Env} {L : StorageEngine} {K K' K'' : Keyspace} {now : TimePoint}

/-- No record, no change. -/
theorem Replays.nil (env : Env) (K : Keyspace) : Replays env [] K K := fun _ P hwf _ hK =>
  ⟨P, rfl, rfl, hwf, hK⟩

/-- Records are replayed one list after the other. -/
theorem Replays.append {records more : List (List Bytes)} (h : Replays env records K K')
    (hmore : Replays env more K' K'') : Replays env (records ++ more) K K'' := by
  intro T P hwf hsetup hK
  obtain ⟨P₁, happly₁, hb₁⟩ := h T P hwf hsetup hK
  obtain ⟨P₂, happly₂, hb₂⟩ := hmore T P₁ hb₁.wf (hb₁.setup.trans hsetup) hb₁.keyspace
  exact ⟨P₂, by rw [applyRecords_append, happly₁, Option.bind_some, happly₂], hb₁.trans hb₂⟩

/-- What a record that was replayed without an error has written. -/
theorem applyRecord_writes {T : ℤ} {P P' : StorageEngine} {record : List Bytes} (hwf : P.WF)
    (h : applyRecord env T P record = some P') : ∃ name, CommandName.ofArgs record = some name ∧
      Commands.Writes P P' record.tail (Commands.setsExpiry name record = true) := by
  simp only [applyRecord, Option.bind_eq_bind, Option.bind_eq_some_iff] at h
  obtain ⟨name, hname, eff, heff, hif⟩ := h
  split_ifs at hif
  cases hif
  have hwrites := Commands.effect_writes (show (replayContext env P).storage.WF from hwf) heff
  exact ⟨name, hname, hwrites⟩

/-- The record of a write that sets no deadline sets none. -/
theorem Commands.Logs.record_untimed {name : CommandName} {args : List Bytes} {eff : Effect}
    (hlogs : Commands.Logs now L name args eff) (hname : CommandName.ofArgs args = some name)
    (huntimed : Commands.setsExpiry name args = false) :
    ∃ record, eff.record = some record ∧ ∀ name', CommandName.ofArgs record = some name' →
      Commands.setsExpiry name' record = false := by
  have hself : ∀ name', CommandName.ofArgs args = some name' →
      Commands.setsExpiry name' args = false := by
    intro name' h
    rw [hname, Option.some.injEq] at h
    exact h ▸ huntimed
  cases hlogs with
  | @set head key value rest options hparse hok =>
    have hnone : options.ttl = none ∧ options.pxat = none := by
      rw [setsExpiry_set hparse] at huntimed
      simpa using huntimed
    have hrecord : setRecord key value options now = [ascii "SET", key, value] := by
      simp [setRecord, SetOptions.effectiveTtl, hnone.1, hnone.2]
    have hfind : CommandName.ofArgs [ascii "SET", key, value] = some .set := by
      rw [CommandName.ofArgs_cons]
      decide
    refine ⟨_, rfl, ?_⟩
    rw [hrecord, hfind]
    rintro _ ⟨⟩
    rfl
  | flushdb =>
    have hfind : CommandName.ofArgs [ascii "FLUSHDB"] = some .flushdb := by decide
    refine ⟨_, rfl, ?_⟩
    rw [hfind]
    rintro _ ⟨⟩
    rfl
  | expire => cases huntimed
  | pexpire => cases huntimed
  | pexpireat => cases huntimed
  | del | mset | incr | decr | append | persist => exact ⟨_, rfl, hself⟩

/-- Two engines with one keyspace that has no deadlines. -/
theorem Sim.of_untimed {P : StorageEngine} (hL : L.WF) (hP : P.WF) (hsetup : P.setup = L.setup)
    (huntimed : L.keyspace.Untimed) (hK : P.keyspace = L.keyspace) (T : ℤ) : Sim T 0 none L P := by
  refine ⟨hsetup, hL, hP, fun k => ?_, fun _ k x hx => ⟨x, hK ▸ hx, rfl⟩⟩
  rw [hK, huntimed.visible_eq]
  cases hk : L.keyspace k with
  | none => exact Agrees.none_none
  | some x => exact ⟨x, rfl, rfl, Returns.refl _⟩

/-- **The record of a write** that sets no deadline does what the write did. -/
theorem Replays.of_logs (hL : L.WF) (hsetup : L.setup = (freshStorage env).setup)
    (hK : L.keyspace.Untimed) {name : CommandName} {args : List Bytes} {eff : Effect}
    (hname : CommandName.ofArgs args = some name)
    (huntimed : Commands.setsExpiry name args = false)
    (hlogs : Commands.Logs now L name args eff) :
    ∃ record, eff.record = some record ∧
      Replays env [record] L.keyspace eff.storage.keyspace := by
  obtain ⟨record, hrec, hrecord⟩ := hlogs.record_untimed hname huntimed
  refine ⟨record, hrec, fun T P hwf hsetupP hKP => ?_⟩
  have hsim := Sim.of_untimed hL hwf (hsetupP.trans hsetup.symm) hK hKP T
  obtain ⟨record', P', hrec', happly, hsim'⟩ : ∃ record P', eff.record = some record ∧
      applyRecord env T P record = some P' ∧ Sim T 0 none eff.storage P' :=
    hsim.logs_within le_rfl (hK.pastBy now T) hname (hK.safe T huntimed) hlogs
  rw [hrec, Option.some.injEq] at hrec'
  subst hrec'
  obtain ⟨name', hname', hwrites⟩ := applyRecord_writes hwf happly
  have huntimedP : P'.keyspace.Untimed := (hKP ▸ hK).writes (hrecord name' hname') hwrites
  have huntimedL : eff.storage.keyspace.Untimed := hK.writes huntimed (hlogs.writes hL)
  refine ⟨P', by simp [applyRecords, happly], hwrites.setup, hwrites.wf, ?_⟩
  rw [← huntimedP.visible_eq T, ← huntimedL.visible_eq T, hsim'.visible_eq]

/-- The keys that are stored after a replay come from the records. -/
theorem applyRecords_keys {T : ℤ} {P P' : StorageEngine} {records : List (List Bytes)} (hwf : P.WF)
    (h : applyRecords env T P records = some P') {k : Bytes} {x : Item} (hx : P'.keyspace k = some x) :
    (∃ y, P.keyspace k = some y) ∨
      ∃ record ∈ records, k ∈ record.tail ∧ (CommandName.ofArgs record).isSome = true := by
  induction records generalizing P with
  | nil =>
    cases h
    exact .inl ⟨x, hx⟩
  | cons record records ih =>
    simp only [applyRecords, List.foldlM_cons, Option.bind_eq_bind, Option.bind_eq_some_iff] at h
    obtain ⟨P₁, hone, hrest⟩ := h
    obtain ⟨name, hname, hwrites⟩ := applyRecord_writes hwf hone
    rcases ih hwrites.wf hrest with ⟨y, hy⟩ | ⟨r, hr, hmem⟩
    · rcases hwrites.items k y hy with hy' | ⟨hk, -⟩
      · exact .inl ⟨y, hy'⟩
      · exact .inr ⟨record, by simp, hk, by rw [hname]; rfl⟩
    · exact .inr ⟨r, by simp [hr], hmem⟩

/-- Their lengths are within the limits that the parser checked, as is that of a command name. -/
theorem Replays.keys {records : List (List Bytes)} (h : Replays env records (fun _ => none) K)
    (hwithin : ∀ record ∈ records,
      WithinLimits (parserOptionsFromConfig env.config.protocol) record)
    {k : Bytes} {x : Item} (hx : K k = some x) :
    k.length ≤ env.config.protocol.maxValueSize ∧ 3 ≤ env.config.protocol.maxValueSize := by
  obtain ⟨P, happly, hb⟩ := h 0 (freshStorage env) (wf_freshStorage env) rfl
    (keyspace_freshStorage env)
  rcases applyRecords_keys (wf_freshStorage env) happly (hb.keyspace ▸ hx) with
    ⟨y, hy⟩ | ⟨record, hrecord, hk, hname⟩
  · rw [keyspace_freshStorage] at hy
    cases hy
  · have hbulk := (hwithin record hrecord).bulk
    cases record with
    | nil => cases hk
    | cons head tail =>
      refine ⟨hbulk k (by simp [List.tail_cons ▸ hk]), ?_⟩
      exact (CommandName.three_le_length hname).trans (hbulk head (by simp))

end Records

/-! ## The text of a snapshot -/

section Text

variable {env : Env} {L : StorageEngine}

/-- What has no deadline has no bad one. -/
theorem Keyspace.Untimed.representable {K : Keyspace} (h : K.Untimed) : K.Representable := by
  intro k x hx d hd
  rw [h k x hx] at hd
  cases hd

/-- Reading the live entries back gives the keyspace, through the registry as through
`SnapshotStore::load`. -/
theorem reload_untimed (hL : L.WF) (hsetup : L.setup = (freshStorage env).setup)
    (hK : L.keyspace.Untimed) (order : IterationOrder) (now T : TimePoint) {P : StorageEngine}
    (hP : P.WF) (hsetupP : P.setup = (freshStorage env).setup) (hempty : P.keyspace = fun _ => none) :
    ∃ P', StorageEngine.Becomes P P' L.keyspace ∧
      applyRecords env T P ((order.arrange (L.snapshot now).1).flatMap snapshotRecords) = some P' ∧
      feed (SnapshotStore.loadCommand T) ((order.arrange (L.snapshot now).1).flatMap snapshotRecords) P 0
        = .inl (P', ((order.arrange (L.snapshot now).1).flatMap snapshotRecords).length) := by
  obtain ⟨P', hb, happly, hfeed, -⟩ := reload_spec hL hK.representable order now hP
    (hsetupP.trans hsetup.symm) hempty T
  refine ⟨P', ⟨hb.setup, hb.wf, ?_⟩, happly env, by rw [hfeed, Nat.zero_add]⟩
  rw [hb.keyspace, hK.visible_eq]
  funext k
  cases hk : L.keyspace k with
  | none => rfl
  | some x =>
    obtain ⟨value, expiry⟩ := x
    obtain rfl : expiry = none := hK k _ hk
    rfl

/-- The records of a snapshot bring its keyspace back. -/
theorem Replays.of_snapshot (hL : L.WF) (hsetup : L.setup = (freshStorage env).setup)
    (hK : L.keyspace.Untimed) (order : IterationOrder) (now : TimePoint) :
    Replays env ((order.arrange (L.snapshot now).1).flatMap snapshotRecords) (fun _ => none)
      L.keyspace := by
  intro T P hP hsetupP hempty
  obtain ⟨P', hb, happly, -⟩ := reload_untimed hL hsetup hK order now T hP hsetupP hempty
  exact ⟨P', happly, hb⟩

/-- A record of the text is the `SET` of a stored item. -/
theorem mem_snapshotRecords (hL : L.WF) (hK : L.keyspace.Untimed) {order : IterationOrder}
    {now : TimePoint} {record : List Bytes}
    (h : record ∈ (order.arrange (L.snapshot now).1).flatMap snapshotRecords) :
    ∃ key value, record = [ascii "SET", key, value] ∧ L.keyspace key = some ⟨value, none⟩ := by
  obtain ⟨entry, hentry, hrecord⟩ := List.mem_flatMap.mp h
  obtain ⟨y, hy, hvalue, hexp⟩ :=
    ((snapshot_spec hL now).2.2 entry).mp ((order.perm _).mem_iff.mp hentry)
  rw [hK.visible_eq] at hy
  have hnone := hK _ y hy
  rw [hnone, Option.map_none] at hexp
  refine ⟨entry.key, entry.value, by simpa [snapshotRecords, hexp] using hrecord, ?_⟩
  rw [hy, hvalue]
  congr 1
  cases y
  cases hnone
  rfl

/-- No record is longer than the text of all. -/
theorem length_encodeCommand_le_of_mem {record : List Bytes} {records : List (List Bytes)}
    (h : record ∈ records) :
    (encodeCommand record).length ≤ (records.flatMap encodeCommand).length := by
  obtain ⟨before, after, rfl⟩ := List.append_of_mem h
  simp only [List.flatMap_append, List.flatMap_cons, List.length_append]
  omega

/-- The file is not longer than a request may be, nor than a file can be. -/
structure FileFits (env : Env) (text : Bytes) : Prop where
  request : text.length ≤ env.config.protocol.maxRequestBytes
  size : text.length ≤ maxSize

instance (env : Env) (text : Bytes) : Decidable (FileFits env text) :=
  decidable_of_iff (text.length ≤ env.config.protocol.maxRequestBytes ∧ text.length ≤ maxSize)
    ⟨fun ⟨h₁, h₂⟩ => ⟨h₁, h₂⟩, fun ⟨h₁, h₂⟩ => ⟨h₁, h₂⟩⟩

/-- The records of a text that fits, made of keys that have been read before, are within the limits.
-/
theorem within_snapshotRecords (hL : L.WF) (hsetup : L.setup = (freshStorage env).setup)
    (hK : L.keyspace.Untimed) {order : IterationOrder} {now : TimePoint}
    (helements : 3 ≤ env.config.protocol.maxArrayElements)
    (hkeys : ∀ k x, L.keyspace k = some x →
      k.length ≤ env.config.protocol.maxValueSize ∧ 3 ≤ env.config.protocol.maxValueSize)
    (hfit : FileFits env (snapshotText order now L)) :
    ∀ record ∈ (order.arrange (L.snapshot now).1).flatMap snapshotRecords,
      WithinLimits (parserOptionsFromConfig env.config.protocol) record := by
  intro record hrecord
  obtain ⟨key, value, rfl, hkey⟩ := mem_snapshotRecords hL hK hrecord
  have hlen := length_encodeCommand_le_of_mem hrecord
  obtain ⟨entry, hentry, hitem⟩ := StorageEngine.keyspace_eq_some.mp hkey
  have hvalue : value.length ≤ env.config.protocol.maxValueSize := by
    have hvalid := (hL.sizes key entry hentry).2
    rw [hsetup, show entry.value = value from congrArg Item.value hitem] at hvalid
    exact of_decide_eq_true hvalid
  obtain ⟨hkeyLen, hname⟩ := hkeys key _ hkey
  have hsize : ∀ arg ∈ [ascii "SET", key, value], arg.length ≤ maxSize := fun arg harg =>
    (length_le_of_mem_encodeCommand harg).trans (hlen.trans hfit.size)
  refine ⟨helements, ?_, hlen.trans hfit.request, by simp [maxSize], hsize⟩
  intro arg harg
  simp only [List.mem_cons, List.not_mem_nil, or_false] at harg
  rcases harg with rfl | rfl | rfl
  · exact hname
  · exact hkeyLen
  · exact hvalue

end Text

end VeloxDb
