import VeloxDb.Persistence.Limits
import VeloxDb.Protocol.Stream
import VeloxDb.Recovery.ErrorReplies

/-!
# Snapshots that fail to load

`SnapshotStore::load` applies each record to the engine as soon as it is parsed. If the file turns
out to be damaged further on, or a record is refused, it reports an error, and what it has applied by
then stays; without a log, `main` logs the error and serves that. So a load that fails has changed
nothing only where the records in front of the failure leave every key as it was.

Which records those are is a matter of the bytes of the file and of the items that the engine holds:
the parser takes the commands off the file, and a list of the items, brought up to date record by
record, says whether the next one is let in (`Book.loads`). What they do to a key is said by the last
value that they give to it and the deadlines behind it (`given`, `settled`), and they do nothing if
these are what the key shows (`Leaves`).
-/

namespace VeloxDb

open Decimal Util Resp Recovery StorageEngine

/-! ## Records -/

/-- A record that a snapshot may hold. -/
inductive SnapshotRecord
  | set (key value : Bytes)
  | expireAt (key : Bytes) (deadline : TimePoint)
deriving DecidableEq, Repr

namespace SnapshotRecord

/-- The record of a command, unless it is unknown or its time is not a number. -/
def ofArgs : List Bytes → Option SnapshotRecord
  | [name, key, arg] =>
    if name = ascii "SET" then some (.set key arg)
    else if name = ascii "PEXPIREAT" then
      (parseI64 arg).map fun ms => .expireAt key (timepointFromUnixMs ms)
    else none
  | _ => none

/-- What a record does to the visible item of a key. -/
def onKey (now : TimePoint) (key : Bytes) (x : Option Item) : SnapshotRecord → Option Item
  | .set k value => if k = key then some ⟨value, none⟩ else x
  | .expireAt k deadline => if k = key then expiredAt deadline now x else x

/-- A further record gives a key a value, and then no deadline yet, or a deadline, or nothing. -/
def give (key : Bytes) (sofar : Option Bytes × List TimePoint) :
    SnapshotRecord → Option Bytes × List TimePoint
  | .set k value => if k = key then (some value, []) else sofar
  | .expireAt k deadline => if k = key then (sofar.1, sofar.2 ++ [deadline]) else sofar

/-- The last value that the records give to a key, and the deadlines that they give it behind that. -/
def given (key : Bytes) (records : List SnapshotRecord) : Option Bytes × List TimePoint :=
  records.foldl (give key) (none, [])

/-- What a value and the deadlines behind it make of an item: a deadline that has come deletes, and
of the others the last one counts. -/
def settled (now : TimePoint) (x : Option Item) : Option Bytes × List TimePoint → Option Item
  | (value, deadlines) =>
    ((value.map fun v => ⟨v, none⟩).or x).bind fun y =>
      if ∃ d ∈ deadlines, d ≤ now then none else some ⟨y.value, deadlines.getLast?.or y.expiry⟩

theorem settled_concat (now : TimePoint) (x : Option Item) (value : Option Bytes)
    (deadlines : List TimePoint) (d : TimePoint) :
    settled now x (value, deadlines ++ [d]) = expiredAt d now (settled now x (value, deadlines)) := by
  simp only [settled, expiredAt]
  cases ((value.map fun v => (⟨v, none⟩ : Item)).or x) with
  | none => simp
  | some y =>
    by_cases hcome : ∃ d' ∈ deadlines, d' ≤ now
    · simp [hcome]
    · by_cases hd : d ≤ now
      · simp [hd]
      · simp [hcome, hd]

/-- Record by record, or by what the records give to the key. -/
theorem foldl_onKey (now : TimePoint) (key : Bytes) (x : Option Item)
    (records : List SnapshotRecord) :
    records.foldl (onKey now key) x = settled now x (given key records) := by
  induction records using List.reverseRecOn with
  | nil => cases x <;> simp [given, settled]
  | append_singleton records record ih =>
    have hgiven : given key (records ++ [record]) = give key (given key records) record :=
      List.foldl_concat ..
    rw [List.foldl_concat, ih, hgiven]
    cases record with
    | set k value =>
      by_cases hk : k = key
      · simp [onKey, give, hk, settled]
      · simp [onKey, give, hk]
    | expireAt k deadline =>
      by_cases hk : k = key
      · simp [onKey, give, hk, settled_concat]
      · simp [onKey, give, hk]

/-- What the records give to a key is what it shows: nothing, or a deadline that has come, if it shows
no item, and otherwise its value, if any, and in the end its deadline. -/
def Leaves (now : TimePoint) (given : Option Bytes × List TimePoint) : Option Item → Prop
  | none => given.1 = none ∨ ∃ d ∈ given.2, d ≤ now
  | some x => (∀ v ∈ given.1, v = x.value) ∧ (∀ d ∈ given.2, now < d) ∧
      (given = (none, []) ∨ given.2.getLast? = x.expiry)

theorem settled_eq_self_iff (now : TimePoint) (x : Option Item) (g : Option Bytes × List TimePoint) :
    settled now x g = x ↔ Leaves now g x := by
  obtain ⟨value, deadlines⟩ := g
  cases x with
  | none => cases value <;> simp [settled, Leaves]
  | some x =>
    obtain ⟨v, expiry⟩ := x
    by_cases hcome : ∃ d ∈ deadlines, d ≤ now
    · obtain ⟨d, hd, hle⟩ := hcome
      refine iff_of_false ?_ fun hleaves => absurd (hleaves.2.1 d hd) hle.not_gt
      have hsome : ∃ d ∈ deadlines, d ≤ now := ⟨d, hd, hle⟩
      simp [settled, hsome]
    · have hnone : ∀ d ∈ deadlines, now < d := fun d hd => not_le.mp fun hle => hcome ⟨d, hd, hle⟩
      have hleaves : Leaves now (value, deadlines) (some ⟨v, expiry⟩) ↔ (∀ w ∈ value, w = v) ∧
          ((value, deadlines) = (none, []) ∨ deadlines.getLast? = expiry) :=
        ⟨fun hl => ⟨hl.1, hl.2.2⟩, fun hl => ⟨hl.1, hnone, hl.2⟩⟩
      rw [hleaves]
      cases value with
      | none =>
        cases hlast : deadlines.getLast? with
        | none => simp [settled, List.getLast?_eq_none_iff.mp hlast]
        | some d =>
          have hne : deadlines ≠ [] := by
            rintro rfl
            cases hlast
          simp [settled, hcome, hlast, hne]
      | some w => simp [settled, hcome]

end SnapshotRecord

open SnapshotRecord

/-! ## Which records are let in -/

/-- The item of every key. -/
abbrev Book := List (Σ _ : Bytes, Item)

namespace Book

variable (setup : StorageSetup) (now : TimePoint)

/-- The values alone, which take the memory. -/
def values (b : Book) : Holdings := b.map fun p => ⟨p.1, p.2.value⟩

def put (b : Book) (key : Bytes) : Option Item → Book
  | some x => b.kinsert key x
  | none => b.kerase key

/-- The items after a record, unless it is refused. -/
def apply (b : Book) : SnapshotRecord → Option Book
  | .set key value =>
    if b.values.accepts setup key value then some (b.put key (some ⟨value, none⟩)) else none
  | .expireAt key deadline =>
    some (b.put key (expiredAt deadline now ((b.dlookup key).filter fun x => !x.expired now)))

/-- The records in front of the first one that cannot be loaded, and whether there is no such. -/
def loads : Book → List (List Bytes) → List SnapshotRecord × Bool
  | _, [] => ([], true)
  | b, args :: rest =>
    match (ofArgs args).bind fun record => (b.apply setup now record).map (record, ·) with
    | none => ([], false)
    | some (record, b') => (record :: (loads b' rest).1, (loads b' rest).2)

/-- The list is that of the engine, in any order. -/
structure Lists (b : Book) (e : StorageEngine) : Prop where
  nodup : b.NodupKeys
  lookup : ∀ k, b.dlookup k = e.keyspace k

variable {b : Book} {e e' : StorageEngine}

theorem Lists.pays (h : b.Lists e) : Pays b.values e where
  nodup := List.NodupKeys.map₂ (fun _ => Item.value) _ h.nodup
  lookup k := by
    rw [← h.lookup]
    exact List.dlookup_map₂ (δ := fun _ => Bytes) (f := fun _ => Item.value) k

theorem Lists.put (h : b.Lists e) {key : Bytes} {x : Option Item}
    (hb : Becomes e e' (Function.update e.keyspace key x)) : (b.put key x).Lists e' where
  nodup := by
    cases x with
    | none => exact h.nodup.kerase key
    | some x => exact List.kinsert_nodupKeys key x h.nodup
  lookup k := by
    rw [hb.keyspace]
    by_cases hk : k = key
    · subst hk
      rw [Function.update_self]
      cases x with
      | none => exact List.dlookup_kerase _ h.nodup
      | some x => exact List.dlookup_kinsert _
    · rw [Function.update_of_ne hk, ← h.lookup]
      cases x with
      | none => exact List.dlookup_kerase_ne hk
      | some x => exact List.dlookup_kinsert_ne hk

end Book

/-- The items of an engine, those that have expired as well. -/
def StorageEngine.book (e : StorageEngine) : Book := e.entries.map fun p => ⟨p.1, p.2.item⟩

theorem StorageEngine.WF.lists_book {e : StorageEngine} (h : e.WF) : e.book.Lists e where
  nodup := List.NodupKeys.map₂ (fun _ => Entry.item) _ h.nodupKeys_entries
  lookup k := by
    rw [keyspace, ← h.dlookup_entries]
    exact List.dlookup_map₂ (δ := fun _ => Item) (f := fun _ => Entry.item) k

/-! ## What `load` does with the records -/

section Load

variable {e : StorageEngine} {b : Book} {now : TimePoint}

/-- The engine after some records: what is visible is what they make of it. -/
structure Applied (now : TimePoint) (e e' : StorageEngine) (records : List SnapshotRecord) : Prop where
  wf : e'.WF
  setup : e'.setup = e.setup
  visible : ∀ key, e'.keyspace.visible now key
    = records.foldl (onKey now key) (e.keyspace.visible now key)

theorem Applied.trans {e' e'' : StorageEngine} {records more : List SnapshotRecord}
    (h : Applied now e e' records) (h' : Applied now e' e'' more) :
    Applied now e e'' (records ++ more) :=
  ⟨h'.wf, h'.setup.trans h.setup, fun key => by rw [h'.visible, h.visible, List.foldl_append]⟩

theorem Applied.of_reclaimed {e' : StorageEngine} (h : Reclaimed now e e') : Applied now e e' [] :=
  ⟨h.wf, h.setup, fun key => congrFun (h.reclaims.visible_eq le_rfl) key⟩

/-- A record that gives a key an item that has not expired, or none. -/
theorem Applied.of_becomes {e' : StorageEngine} {key : Bytes} {x : Option Item}
    {record : SnapshotRecord} (h : Becomes e e' (Function.update e.keyspace key x))
    (hx : ∀ y ∈ x, y.expired now = false)
    (hself : onKey now key (e.keyspace.visible now key) record = x)
    (hother : ∀ k ≠ key, ∀ y, onKey now k y record = y) : Applied now e e' [record] := by
  refine ⟨h.wf, h.setup, fun k => ?_⟩
  rw [h.keyspace, List.foldl_cons, List.foldl_nil]
  by_cases hk : k = key
  · subst hk
    rw [hself, Keyspace.visible_update_self]
    cases x with
    | none => rfl
    | some y => simp [hx y rfl]
  · rw [hother k hk, Keyspace.visible_update_of_ne hk]

/-- A command that `load` refuses without touching the engine. -/
theorem refused_untouched (h : e.WF) {args : List Bytes} {status : Status}
    (hload : SnapshotStore.loadCommand now e args = (status, e)) (hok : status.isOk = false) :
    ∃ status e', SnapshotStore.loadCommand now e args = (status, e') ∧ status.isOk = false ∧
      Applied now e e' [] :=
  ⟨status, e, hload, hok, h, rfl, fun _ => rfl⟩

/-- `SET` is applied if the list lets the pair in, and otherwise refused. -/
theorem load_set_spec (h : e.WF) (hb : b.Lists e) (now : TimePoint) (key value : Bytes) :
    match b.apply e.setup now (.set key value) with
    | some b' => ∃ e', SnapshotStore.loadCommand now e [ascii "SET", key, value] = (.ok, e') ∧
        b'.Lists e' ∧ Applied now e e' [.set key value]
    | none => ∃ status e', SnapshotStore.loadCommand now e [ascii "SET", key, value] = (status, e') ∧
        status.isOk = false ∧ Applied now e e' [] := by
  simp only [Book.apply, SnapshotStore.loadCommand, if_true]
  by_cases haccepts : b.values.accepts e.setup key value = true
  · obtain ⟨e', hset, hbecomes⟩ := set_of_admits h none
      (.always (e.keyspace.visible now key)) ((hb.pays.accepts_iff h key value).mp haccepts)
    rw [if_pos haccepts]
    refine ⟨e', by simp [hset], hb.put hbecomes, Applied.of_becomes hbecomes ?_ ?_ ?_⟩
    · intro y hy
      cases hy
      rfl
    · simp [onKey]
    · intro k hk y
      simp [onKey, hk.symm]
  · have hcode : (e.set key value none .always now).1.code ≠ .ok := fun hok =>
      haccepts ((hb.pays.accepts_iff h key value).mpr (set_of_ok h hok).2.1)
    rw [if_neg haccepts]
    exact ⟨_, _, if_pos hcode, rfl, Applied.of_reclaimed (set_reclaimed h hcode)⟩

/-- `PEXPIREAT` with a number is never refused. -/
theorem load_expireAt_spec (h : e.WF) (hb : b.Lists e) (now : TimePoint) (key : Bytes)
    (deadline : TimePoint) :
    ∃ b', b.apply e.setup now (.expireAt key deadline) = some b' ∧
      b'.Lists (e.expireAt key deadline now).2 ∧
      Applied now e (e.expireAt key deadline now).2 [.expireAt key deadline] := by
  obtain ⟨e', hexpire, hbecomes⟩ := expireAt_spec h key deadline now
  rw [hexpire]
  have hvisible : (b.dlookup key).filter (fun x => !x.expired now) = e.keyspace.visible now key := by
    rw [hb.lookup, Keyspace.visible]
  refine ⟨_, rfl, by rw [hvisible]; exact hb.put hbecomes, Applied.of_becomes hbecomes ?_ ?_ ?_⟩
  · intro y hy
    simp only [expiredAt] at hy
    split_ifs at hy with hdue
    · cases hy
    · obtain ⟨x, -, rfl⟩ := Option.map_eq_some_iff.mp hy
      simp [Item.expired, hdue]
  · simp [onKey]
  · intro k hk y
    simp [onKey, hk.symm]

/-- **One command**: it is applied if it is a record that the list lets in, and otherwise refused. -/
theorem loadCommand_spec (h : e.WF) (hb : b.Lists e) (now : TimePoint) (args : List Bytes) :
    match (ofArgs args).bind fun record => (b.apply e.setup now record).map (record, ·) with
    | some (record, b') => ∃ e', SnapshotStore.loadCommand now e args = (.ok, e') ∧ b'.Lists e' ∧
        Applied now e e' [record]
    | none => ∃ status e', SnapshotStore.loadCommand now e args = (status, e') ∧
        status.isOk = false ∧ Applied now e e' [] := by
  match args with
  | [name, key, arg] =>
    by_cases hset : name = ascii "SET"
    · subst hset
      have hspec := load_set_spec h hb now key arg
      simp only [ofArgs, if_true, Option.bind_some]
      cases happly : b.apply e.setup now (.set key arg) with
      | none => simpa only [happly, Option.map_none] using hspec
      | some b' => simpa only [happly, Option.map_some] using hspec
    · by_cases hexpire : name = ascii "PEXPIREAT"
      · subst hexpire
        cases hms : parseI64 arg with
        | none =>
          simp only [ofArgs, hset, if_false, if_true, hms, Option.map_none, Option.bind_none]
          exact refused_untouched h (by simp [SnapshotStore.loadCommand, hset, hms]; rfl) rfl
        | some ms =>
          obtain ⟨b', happly, hb', happlied⟩ :=
            load_expireAt_spec h hb now key (timepointFromUnixMs ms)
          simp only [ofArgs, hset, if_false, if_true, hms, Option.map_some, Option.bind_some, happly]
          exact ⟨_, by simp [SnapshotStore.loadCommand, hset, hms], hb', happlied⟩
      · simp only [ofArgs, hset, hexpire, if_false, Option.bind_none]
        exact refused_untouched h (by simp [SnapshotStore.loadCommand, hset, hexpire]; rfl) rfl
  | [] => exact refused_untouched h rfl rfl
  | [_] => exact refused_untouched h rfl rfl
  | [_, _] => exact refused_untouched h rfl rfl
  | _ :: _ :: _ :: _ :: _ => exact refused_untouched h rfl rfl

/-- **The commands one after the other**: `loads` says how far they are applied, and whether all of
them are. -/
theorem feed_loadCommand (h : e.WF) (hb : b.Lists e) (now : TimePoint) (cmds : List (List Bytes)) (n : ℕ) :
    ∃ e', Applied now e e' (b.loads e.setup now cmds).1 ∧
      if (b.loads e.setup now cmds).2 then
        ∃ n', feed (SnapshotStore.loadCommand now) cmds e n = .inl (e', n')
      else ∃ status n', status.isOk = false ∧
        feed (SnapshotStore.loadCommand now) cmds e n = .inr (.refused status, e', n') := by
  induction cmds generalizing e b n with
  | nil => exact ⟨e, ⟨h, rfl, fun _ => rfl⟩, n, rfl⟩
  | cons args rest ih =>
    have hspec := loadCommand_spec h hb now args
    split at hspec
    · next record b' hstep =>
      obtain ⟨e₁, hload, hb', happlied⟩ := hspec
      obtain ⟨e', hrest, hfeed⟩ := ih happlied.wf hb' (n + 1)
      rw [happlied.setup] at hrest hfeed
      simp only [Book.loads, hstep, feed, hload, Status.isOk_ok, if_true]
      exact ⟨e', happlied.trans hrest, hfeed⟩
    · next hstep =>
      obtain ⟨status, e', hload, hok, happlied⟩ := hspec
      simp only [Book.loads, hstep, Bool.false_eq_true, if_false]
      exact ⟨e', happlied, status, n, hok, by simp [feed, hload, hok]⟩

end Load

/-- How the loop of `drain` ends if no command is refused. -/
def Resp.Drained.stop (d : Drained) : DrainStop :=
  match d.error with
  | none => .needMore d.parser.bufferedBytes
  | some message => .error message

/-- The loop hands over the commands that the parser takes off the buffer. -/
theorem drain_eq_feed {σ : Type} (callback : ReplayCallback σ) (p : Parser)
    (commands : List Command) :
    ∃ taken, (drainCommands commands p).commands = commands ++ taken ∧
      ∀ s n, drain callback p s n =
        match feed callback (taken.map Command.args) s n with
        | .inl (s', n') => ((drainCommands commands p).stop, s', n')
        | .inr stop => stop := by
  -- by induction on the buffer: a command that is taken leaves less of it
  induction hn : p.buffer.length using Nat.strongRecOn generalizing p commands with
  | ind len ih =>
    rcases hnext : p.nextCommand with ⟨r, p'⟩
    cases r with
    | needMore =>
      rw [drainCommands_of_needMore hnext]
      exact ⟨[], (List.append_nil _).symm, fun s n => by rw [drain_eq, hnext]; rfl⟩
    | error message =>
      rw [drainCommands_of_error hnext]
      exact ⟨[], (List.append_nil _).symm, fun s n => by rw [drain_eq, hnext]; rfl⟩
    | ok c =>
      have hlt := length_buffer_lt_of_nextCommand hnext
      obtain ⟨taken, htaken, hdrain⟩ := ih _ (by omega) p' (commands ++ [c]) rfl
      rw [drainCommands_of_ok hnext]
      refine ⟨c :: taken, by rw [htaken, List.append_assoc]; rfl, fun s n => ?_⟩
      rw [drain_eq, hnext]
      simp only [List.map_cons, feed]
      split_ifs
      · exact hdrain _ _
      · rfl

/-- The loop over a whole buffer. -/
theorem drain_eq_feed_commands {σ : Type} (callback : ReplayCallback σ) (p : Parser) (s : σ) (n : ℕ) :
    drain callback p s n =
      match feed callback ((drainCommands [] p).commands.map Command.args) s n with
      | .inl (s', n') => ((drainCommands [] p).stop, s', n')
      | .inr stop => stop := by
  obtain ⟨taken, htaken, hdrain⟩ := drain_eq_feed callback p []
  rw [htaken]
  exact hdrain s n

namespace SnapshotStore

/-- What the parser of `load` takes off a snapshot. -/
def read (store : SnapshotStore) (content : Bytes) : Drained :=
  drainCommands [] ⟨parserOptionsFromConfig store.protocol, content⟩

/-- The records of a snapshot that an engine takes in, up to the first that is refused, if one is. -/
def front (store : SnapshotStore) (now : TimePoint) (e : StorageEngine) (content : Bytes) :
    List SnapshotRecord × Bool :=
  e.book.loads e.setup now ((store.read content).commands.map Command.args)

/-- A snapshot within the request limit has a record that is refused, is damaged, or ends within a
record. -/
def Breaks (store : SnapshotStore) (now : TimePoint) (e : StorageEngine) (content : Bytes) : Prop :=
  (store.front now e content).2 = false ∨ (store.read content).error ≠ none ∨
    (store.read content).parser.buffer ≠ []

/-- How `load` reports the end of its loop. -/
def loadStatus : DrainStop → Status
  | .needMore buffered =>
    if buffered = 0 then .ok else .protocolError (ascii "partial snapshot command")
  | .error message => .protocolError message
  | .refused status => status

/-- A snapshot within the request limit is parsed and applied in one loop. -/
theorem load_eq_drain {store : SnapshotStore} {content : Bytes} (hpath : pathIsSafe store.path = true)
    (hlen : content.length ≤ store.protocol.maxRequestBytes) (now : TimePoint) (e : StorageEngine) :
    store.load now (some content) e =
      ((loadStatus (drain (loadCommand now) ⟨parserOptionsFromConfig store.protocol, content⟩ e 0).1,
        (drain (loadCommand now) ⟨parserOptionsFromConfig store.protocol, content⟩ e 0).2.1)) := by
  simp only [load, hpath, Bool.not_true, Bool.false_eq_true, if_false]
  by_cases hne : content = []
  · subst hne
    rw [drain_nil]
    rfl
  · have happend := append_fresh (o := parserOptionsFromConfig store.protocol) hlen
    rw [if_neg hne, happend]
    simp only [Status.isOk_ok, Bool.not_true, Bool.false_eq_true, if_false]
    rcases drain (loadCommand now) _ e 0 with ⟨_ | _ | _, _, _⟩ <;> rfl

/-- What `load` does with a snapshot within the request limit. -/
theorem load_spec {store : SnapshotStore} {e : StorageEngine} (h : e.WF) {content : Bytes}
    (hpath : pathIsSafe store.path = true) (hlen : content.length ≤ store.protocol.maxRequestBytes)
    (now : TimePoint) :
    Applied now e (store.load now (some content) e).2 (store.front now e content).1 ∧
      ((store.load now (some content) e).1.isOk = false ↔ store.Breaks now e content) := by
  obtain ⟨e', happlied, hfeed⟩ :=
    feed_loadCommand h h.lists_book now ((store.read content).commands.map Command.args) 0
  rw [load_eq_drain hpath hlen, drain_eq_feed_commands, ← read]
  split_ifs at hfeed with hfront
  · obtain ⟨n, hfeed⟩ := hfeed
    rw [hfeed]
    refine ⟨happlied, ?_⟩
    simp only [Breaks, front, hfront, Drained.stop]
    cases (store.read content).error with
    | none =>
      by_cases hbuffer : (store.read content).parser.buffer = []
      · simp [loadStatus, Parser.bufferedBytes, hbuffer]
      · simp [loadStatus, Parser.bufferedBytes, hbuffer]
    | some message => simp [loadStatus]
  · obtain ⟨status, n, hok, hfeed⟩ := hfeed
    rw [hfeed]
    exact ⟨happlied, iff_of_true hok (.inl (Bool.eq_false_iff.mpr hfront))⟩

/-- No snapshot that breaks off behind a change: what the records in front of the failure give to a
key is what it shows. -/
def NoPartialLoad (store : SnapshotStore) (now : TimePoint) (e : StorageEngine)
    (file : Option Bytes) : Prop :=
  ∀ content, file = some content → pathIsSafe store.path = true →
    content.length ≤ store.protocol.maxRequestBytes → store.Breaks now e content →
    ∀ key, Leaves now (given key (store.front now e content).1) (e.keyspace.visible now key)

/-- **A failed load.** It leaves every key, value and deadline as it was exactly if the records in
front of the failure give nothing else. -/
theorem load_all_or_nothing_iff (store : SnapshotStore) {e : StorageEngine} (h : e.WF)
    (now : TimePoint) (file : Option Bytes) :
    ((store.load now file e).1.isOk = false →
      (store.load now file e).2.keyspace.visible now = e.keyspace.visible now) ↔
      store.NoPartialLoad now e file := by
  cases file with
  | none => exact iff_of_true (fun hok => by cases hok) (fun _ hfile => by cases hfile)
  | some content =>
    simp only [NoPartialLoad, Option.some.injEq, forall_eq']
    by_cases hpath : pathIsSafe store.path = true
    · by_cases hlen : content.length ≤ store.protocol.maxRequestBytes
      · obtain ⟨happlied, hbreaks⟩ := load_spec h hpath hlen now
        simp only [hpath, hlen, true_imp_iff, hbreaks, funext_iff, happlied.visible, foldl_onKey,
          settled_eq_self_iff]
      · rw [load_refused hpath (by omega)]
        exact iff_of_true (fun _ => rfl) fun _ hle => absurd hle hlen
    · refine iff_of_true (fun hok => ?_) fun hsafe => absurd hsafe hpath
      simp [load, hpath] at hok

/-- An engine without a key. -/
def noKeys : StorageEngine := { setup := ⟨{}, {}, fun _ => 0⟩ }

/-- A store with the default limits. -/
def dumpStore : SnapshotStore := .new (ascii "dump") {} (ascii "manifest")

/-- An engine with one key. -/
def oneKey : StorageEngine := (noKeys.set (ascii "a") (ascii "1") none .always 0).2

set_option maxRecDepth 100000 in
/-- The first record stores what is there, the second command is unknown: the load fails, and the
engine is as it was. -/
theorem unknown_command_changes_nothing :
    let file := some (encodeCommand (["SET", "a", "1"].map ascii) ++ encodeCommand [ascii "PING"])
    (dumpStore.load 0 file oneKey).1 = .protocolError (ascii "unknown snapshot command") ∧
      oneKey.keyspace.visible 0 (ascii "a") = some ⟨ascii "1", none⟩ ∧
      (dumpStore.load 0 file oneKey).2.keyspace.visible 0 = oneKey.keyspace.visible 0 := by
  intro file
  obtain ⟨hstatus, hvisible, hset, hfront⟩ : (dumpStore.load 0 file oneKey).1
        = .protocolError (ascii "unknown snapshot command") ∧
      oneKey.keyspace.visible 0 (ascii "a") = some ⟨ascii "1", none⟩ ∧
      (noKeys.set (ascii "a") (ascii "1") none .always 0).1.code = .ok ∧
      ∀ content ∈ file, (dumpStore.front 0 oneKey content).1 = [.set (ascii "a") (ascii "1")] := by
    decide +kernel
  have hwf : oneKey.WF := (StorageEngine.set_of_ok (StorageEngine.wf_new _) hset).2.2.wf
  refine ⟨hstatus, hvisible, (load_all_or_nothing_iff dumpStore hwf 0 file).mpr ?_ ?_⟩
  · intro content hcontent _ _ _ key
    rw [hfront content hcontent]
    by_cases hkey : ascii "a" = key
    · subst hkey
      rw [hvisible]
      exact ⟨by simp [given, give], by simp [given, give], .inr (by simp [given, give])⟩
    · have hgiven : given key [.set (ascii "a") (ascii "1")] = (none, []) := by
        simp [given, give, hkey]
      rw [hgiven]
      cases oneKey.keyspace.visible 0 key with
      | none => exact .inl rfl
      | some x => exact ⟨nofun, nofun, .inl rfl⟩
  · rw [hstatus]
    rfl

set_option maxRecDepth 100000 in
/-- The second command is cut off: the load fails, and the first record is visible. -/
theorem truncated_snapshot_loads_in_part :
    let file := some (encodeCommand (["SET", "a", "1"].map ascii) ++ ascii "*3\r\n")
    (dumpStore.load 0 file noKeys).1 = .protocolError (ascii "partial snapshot command") ∧
      noKeys.keyspace.visible 0 (ascii "a") = none ∧
      (dumpStore.load 0 file noKeys).2.keyspace.visible 0 (ascii "a") = some ⟨ascii "1", none⟩ := by
  decide +kernel

end SnapshotStore

end VeloxDb
