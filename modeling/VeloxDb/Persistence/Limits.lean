import VeloxDb.Persistence.Snapshot
import VeloxDb.Protocol.Acceptance

/-!
# The request limit on whole files

`replay_file` and `SnapshotStore::load` hand a whole file to one parser, whose request limit was
meant for one request. A file of commands that are each within the limits is read back in full if it
is within that limit too, and refused without a single command if it is not.
-/

namespace VeloxDb

open Resp Util

theorem flatMap_encodeCommand_ne_nil {cmds : List (List Bytes)} (h : cmds ≠ []) :
    cmds.flatMap encodeCommand ≠ [] := by
  obtain ⟨args, rest, rfl⟩ := List.exists_cons_of_ne_nil h
  have hpos := length_encodeCommand_pos args
  rw [← List.length_pos_iff, List.flatMap_cons, List.length_append]
  omega

/-- A buffer over the request limit is refused. -/
theorem append_fresh_refused {o : ParserOptions} {bytes : Bytes} (h : o.maxRequestBytes < bytes.length) :
    ({ options := o } : Parser).append bytes
      = (.resourceExhausted (ascii "request buffer exceeded limit"), { options := o }) := by
  rw [Parser.append, if_pos (.inl h)]

/-! ## Logs -/

section Replay

variable {σ : Type} {path : Bytes} {protocol : ProtocolConfig} {callback : ReplayCallback σ}

/-- A log over the request limit is refused as a whole. -/
theorem replayFile_refused (hpath : pathIsSafe path = true) {content : Bytes}
    (hlen : protocol.maxRequestBytes < content.length) (s : σ) :
    replayFile path (some content) protocol callback 0 s
      = ({ status := .resourceExhausted (ascii "request buffer exceeded limit") }, s) := by
  have hne : content ≠ [] := by
    rintro rfl
    cases hlen
  have hpos : 0 < content.length := List.length_pos_iff.mpr hne
  simp only [replayFile, hpath, Bool.not_true, Bool.false_eq_true, if_false]
  rw [if_neg hne, if_neg (by omega), if_neg (by omega), List.drop_zero,
    append_fresh_refused (o := parserOptionsFromConfig protocol) hlen]
  rfl

end Replay

/-! ## Snapshots -/

namespace SnapshotStore

/-- A snapshot made of encoded commands, all of which are accepted. -/
theorem load_of_feed {store : SnapshotStore} (hpath : pathIsSafe store.path = true)
    {cmds : List (List Bytes)}
    (hlim : ∀ args ∈ cmds, WithinLimits (parserOptionsFromConfig store.protocol) args)
    (hlen : (cmds.flatMap encodeCommand).length ≤ store.protocol.maxRequestBytes) {now : TimePoint}
    {storage storage' : StorageEngine} {commands : ℕ}
    (hfeed : feed (loadCommand now) cmds storage 0 = .inl (storage', commands)) :
    store.load now (some (cmds.flatMap encodeCommand)) storage = (.ok, storage') := by
  simp only [load, hpath, Bool.not_true, Bool.false_eq_true, if_false]
  by_cases hcmds : cmds = []
  · subst hcmds
    cases hfeed
    rfl
  · rw [if_neg (flatMap_encodeCommand_ne_nil hcmds), append_fresh hlen]
    simp only [Status.isOk_ok, Bool.not_true, Bool.false_eq_true, if_false]
    rw [drain_encode cmds hlim (List.append_nil _).symm, hfeed]
    simp only [drain_nil, if_true]

/-- A snapshot over the request limit is refused as a whole. -/
theorem load_refused {store : SnapshotStore} (hpath : pathIsSafe store.path = true) {content : Bytes}
    (hlen : store.protocol.maxRequestBytes < content.length) (now : TimePoint)
    (storage : StorageEngine) :
    store.load now (some content) storage
      = (.resourceExhausted (ascii "request buffer exceeded limit"), storage) := by
  have hne : content ≠ [] := by
    rintro rfl
    cases hlen
  simp only [load, hpath, Bool.not_true, Bool.false_eq_true, if_false]
  rw [if_neg hne, append_fresh_refused (o := parserOptionsFromConfig store.protocol) hlen]
  rfl

/-- The records are `SET` and `PEXPIREAT` records, every value finds room when its turn comes, and
applying all of them leads from one storage to the other. -/
inductive Applies (now : TimePoint) : List (List Bytes) → StorageEngine → StorageEngine → Prop
  | nil {storage : StorageEngine} : Applies now [] storage storage
  | set {key value : Bytes} {rest : List (List Bytes)} {storage storage' : StorageEngine}
      (hroom : (storage.set key value none .always now).1.code = .ok)
      (hrest : Applies now rest (storage.set key value none .always now).2 storage') :
      Applies now ([ascii "SET", key, value] :: rest) storage storage'
  | pexpireat {key text : Bytes} {ms : ℤ} {rest : List (List Bytes)} {storage storage' : StorageEngine}
      (hms : parseI64 text = some ms)
      (hrest : Applies now rest (storage.expireAt key (timepointFromUnixMs ms) now).2 storage') :
      Applies now ([ascii "PEXPIREAT", key, text] :: rest) storage storage'

theorem feed_of_applies {now : TimePoint} {cmds : List (List Bytes)} {storage storage' : StorageEngine}
    (h : Applies now cmds storage storage') (commands : ℕ) :
    feed (loadCommand now) cmds storage commands = .inl (storage', commands + cmds.length) := by
  induction h generalizing commands with
  | nil => rfl
  | @set key value rest storage storage' hroom hrest ih =>
    have hset : loadCommand now storage [ascii "SET", key, value]
        = (.ok, (storage.set key value none .always now).2) := by
      simp [loadCommand, hroom]
    simp only [feed, hset, Status.isOk_ok, if_true, List.length_cons, ih, Nat.add_right_comm _ 1,
      Nat.add_assoc]
  | @pexpireat key text ms rest storage storage' hms hrest ih =>
    have hpexpireat : loadCommand now storage [ascii "PEXPIREAT", key, text]
        = (.ok, (storage.expireAt key (timepointFromUnixMs ms) now).2) := by
      have hname : ascii "PEXPIREAT" ≠ ascii "SET" := by decide +kernel
      simp only [loadCommand, if_neg hname, if_true, hms]
    simp only [feed, hpexpireat, Status.isOk_ok, if_true, List.length_cons, ih, Nat.add_right_comm _ 1,
      Nat.add_assoc]

end SnapshotStore

/-- **The request limit decides.** A file of commands, each of which a fresh parser reads back, is
processed as a whole exactly if its total length is within the request limit: a log that is replayed
with a callback that never refuses, and a snapshot whose records all find room. -/
theorem recovery_complete_iff {protocol : ProtocolConfig} {cmds : List (List Bytes)}
    (h : ∀ args ∈ cmds, ReadBack (parserOptionsFromConfig protocol) args) :
    (∀ (σ : Type) (callback : ReplayCallback σ) (path : Bytes) (s : σ), pathIsSafe path = true →
      (∀ s args, (callback s args).1.isOk = true) →
      (replayFile path (some (cmds.flatMap encodeCommand)) protocol callback 0 s
          = ({ commands := cmds.length }, cmds.foldl (fun s args => (callback s args).2) s) ↔
        (cmds.flatMap encodeCommand).length ≤ protocol.maxRequestBytes)) ∧
    ∀ (store : SnapshotStore) (now : TimePoint) (storage storage' : StorageEngine),
      store.protocol = protocol → pathIsSafe store.path = true →
      SnapshotStore.Applies now cmds storage storage' →
      (store.load now (some (cmds.flatMap encodeCommand)) storage = (.ok, storage') ↔
        (cmds.flatMap encodeCommand).length ≤ protocol.maxRequestBytes) := by
  have hlim : ∀ args ∈ cmds, WithinLimits (parserOptionsFromConfig protocol) args :=
    fun args hargs => readBack_iff.mp (h args hargs)
  constructor
  · intro σ callback path s hpath hcb
    constructor
    · intro hreplay
      by_contra hlong
      rw [replayFile_refused hpath (by omega)] at hreplay
      cases congrArg (fun r => r.1.status.code) hreplay
    · intro hlen
      have hfeed := feed_of_isOk hcb cmds s 0
      rw [Nat.zero_add] at hfeed
      exact replayFile_of_feed hpath (Nat.zero_le _) rfl hlim hlen hfeed
  · rintro store now storage storage' rfl hpath happlies
    constructor
    · intro hload
      by_contra hlong
      rw [SnapshotStore.load_refused hpath (by omega)] at hload
      cases congrArg (fun r => r.1.code) hload
    · intro hlen
      exact SnapshotStore.load_of_feed hpath hlim hlen (SnapshotStore.feed_of_applies happlies 0)

/-- Three records, of 27, 33 and 27 bytes. -/
def threeRecords : List (List Bytes) :=
  [[ascii "SET", ascii "a", ascii "1"], [ascii "PEXPIREAT", ascii "a", ascii "5"],
    [ascii "SET", ascii "b", ascii "2"]]

/-- They are within this limit together. -/
def mediumRequests : ProtocolConfig := { maxRequestBytes := 87 }

/-- The log is replayed, and the snapshot is loaded: the first key has its deadline, and the last
one is there. -/
theorem threeRecords_complete :
    replayFile (ascii "aof") (some (threeRecords.flatMap encodeCommand)) mediumRequests
        (fun (s : ℕ) _ => (.ok, s + 1)) 0 0 = ({ commands := 3 }, 3) ∧
      ∃ storage : StorageEngine,
        (SnapshotStore.new (ascii "dump") mediumRequests []).load 0
            (some (threeRecords.flatMap encodeCommand)) { setup := ⟨{}, {}, fun _ => 0⟩ }
          = (.ok, storage) ∧
        (storage.ttl (ascii "a") 0).1 = .hasExpiry 5 ∧
        (storage.get (ascii "b") 0).1 = some (ascii "2") := by
  have hread : ∀ args ∈ threeRecords, ReadBack (parserOptionsFromConfig mediumRequests) args := by
    have hlimits : ∀ args ∈ threeRecords,
        WithinLimits (parserOptionsFromConfig mediumRequests) args := by decide +kernel
    exact fun args hargs => readBack_iff.mpr (hlimits args hargs)
  have htotal : (threeRecords.flatMap encodeCommand).length ≤ mediumRequests.maxRequestBytes := by
    decide +kernel
  obtain ⟨storage, happlies, hvalues⟩ : ∃ storage,
      SnapshotStore.Applies 0 threeRecords { setup := ⟨{}, {}, fun _ => 0⟩ } storage ∧
      (storage.ttl (ascii "a") 0).1 = .hasExpiry 5 ∧
      (storage.get (ascii "b") 0).1 = some (ascii "2") := by
    refine ⟨_, .set ?_ (.pexpireat (show parseI64 (ascii "5") = some 5 from ?_) (.set ?_ .nil)), ?_, ?_⟩
    all_goals decide +kernel
  obtain ⟨hreplay, hload⟩ := recovery_complete_iff hread
  have hcalled := (hreplay ℕ (fun s _ => (.ok, s + 1)) (ascii "aof") 0 (by decide) fun _ _ => rfl).mpr
    htotal
  exact ⟨hcalled, storage, (hload _ 0 _ _ rfl (by decide) happlies).mpr htotal, hvalues⟩

/-- Requests of at most 20 bytes. -/
def shortRequests : ProtocolConfig := { maxRequestBytes := 20 }

/-- Two records of 14 bytes, each within the limits, are over the request limit together, and none
is replayed. -/
theorem two_pings_refused :
    ReadBack (parserOptionsFromConfig shortRequests) [ascii "PING"] ∧
      replayFile (ascii "aof") (some ([[ascii "PING"], [ascii "PING"]].flatMap encodeCommand))
          shortRequests (fun (s : ℕ) _ => (.ok, s + 1)) 0 0
        = ({ status := .resourceExhausted (ascii "request buffer exceeded limit") }, 0) :=
  ⟨readBack_iff.mpr (by decide +kernel), replayFile_refused (by decide) (by decide +kernel) 0⟩

end VeloxDb
