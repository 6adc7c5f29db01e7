import VeloxDb.Common.Progress
import VeloxDb.Common.Sections
import VeloxDb.Storage.Soundness

/-!
# Threads that call the storage

Any number of threads call the storage at the same time, and take turns at the grain of single
accesses: a mutex that is taken or given back, a look at a shard or a change of it, a load of
`used_memory_` or an attempt to exchange it. A call has read the clock before it takes its first
mutex, so its reading may be older than that of a call that has overtaken it.

With a memory limit, `used_memory_` is within it at every instant, no release is cut off at zero, and
whenever no call is under way the counter is the memory of the entries. The calls never wait for each
other in a circle. Without a limit, calls on single keys are linearizable: they do what the same
calls do one after another on the engine of `Storage/Engine`.
-/

namespace VeloxDb

open Keyed Reservation

namespace Calls

variable {τ : Type} [DecidableEq τ]

/-- A call of a thread, with its reading of the clock. -/
abbrev Timed := TimePoint × Call

/-- The script of a call at its reading of the clock. -/
def Timed.script (setup : StorageSetup) (c : Timed) : Script Reply := c.2.script setup c.1

/-- What the threads have come to, from an engine that nobody uses. -/
def run (e : StorageEngine) (events : List (Reservation.Event τ Timed)) :
    Threads τ Timed ℕ Shard Reply :=
  Threads.run e.maxMemoryBytes (Timed.script e.setup) e.toStore events

/-! ## Memory and progress -/

section Memory

variable {e : StorageEngine}

/-- An engine whose memory is accounted for. -/
theorem fair_toStore (h : e.Accounted 0) :
    Threads.Fair e.maxMemoryBytes (Script.discipline e.setup) e.toStore :=
  ⟨fun i hi => h.memory i (Finset.mem_range.mp hi), h.exact⟩

variable [Fintype τ]

/-- Every call obeys the discipline of the locks and of the counter. -/
theorem sound_script (setup : StorageSetup) (c : Timed) :
    (c.script setup).Sound (Script.discipline setup) := Script.Owes.call c.1 c.2

/-- **In every interleaving** the counter is what the shards are charged with and what the calls
hold back. -/
theorem inBalance_run (h : e.Accounted 0) (events : List (Reservation.Event τ Timed)) :
    Threads.InBalance e.maxMemoryBytes (Script.discipline e.setup) (run e events) :=
  Threads.balanced_run (sound_script e.setup) (fair_toStore h) events

/-- **Memory under concurrency.** At every instant `used_memory_` is within the limit and covers the
shards that no thread has locked. A thread that is about to release some memory has read a counter
that is not smaller. When no call is under way, the counter is the sum of the shards' `memory_bytes`,
and those are the memory of the entries. -/
theorem memory_of_threads (e : StorageEngine) (haccounted : e.Accounted 0)
    (hlimit : 0 < e.maxMemoryBytes) (events : List (Reservation.Event τ Timed)) :
    let m := run e events
    m.used ≤ e.maxMemoryBytes ∧
      ∑ i ∈ Finset.range e.setup.shardCount,
        (if m.owner i = none then (m.shards i).memoryBytes else 0) ≤ m.used ∧
      (∀ t n current next, m.tasks t = .releasing n current next → n ≤ current) ∧
      (m.AtRest →
        m.used = ∑ i ∈ Finset.range e.setup.shardCount, (m.shards i).memoryBytes ∧
          ∀ i < e.setup.shardCount, (m.shards i).memoryBytes =
            ((m.shards i).map.entries.map fun p => entryMemory p.1 p.2.value).sum) := by
  intro m
  have hne : e.maxMemoryBytes ≠ 0 := by omega
  obtain ⟨lockOf, avail, hbalanced⟩ := inBalance_run haccounted events
  refine ⟨?_, hbalanced.free_le hne, fun t n current next => hbalanced.le_current hne,
    fun hrest => ?_⟩
  · exact Threads.used_le_limit (haccounted.bounded hne) events
  · obtain ⟨hexact, hused⟩ := hbalanced.atRest hrest
    exact ⟨hused hne, fun i hi => hexact i (Finset.mem_range.mpr hi)⟩

/-- Two threads set a key each, in shards of their own. Both read an empty counter, so that one of
them fails to exchange it and has to read it again. -/
def race : List (Reservation.Event Bool Timed) :=
  [.start false (0, .op (.set [97] [49] none .always)),
    .start true (0, .op (.set [98, 99] [49] none .always))] ++
    (List.replicate 12 [.turn false false, .turn true false]).flatten

/-- Two shards; a key is in the one that its length says. -/
def raceSetup (maxMemoryBytes : ℕ) : StorageSetup :=
  { config := { shards := 2, maxMemoryBytes }, limits := {}, hash := List.length }

set_option maxRecDepth 100000 in
/-- In the end the counter is the memory of both entries. -/
theorem race_memory : (run { setup := raceSetup 300 } race).AtRest ∧
    (run { setup := raceSetup 300 } race).used = 197 ∧
    ∑ i ∈ Finset.range 2, ((run { setup := raceSetup 300 } race).shards i).memoryBytes = 197 := by
  have hrun := memory_of_threads { setup := raceSetup 300 } (StorageEngine.wf_new _).toAccounted
    (by decide) race
  have hend : (run { setup := raceSetup 300 } race).AtRest ∧
      (run { setup := raceSetup 300 } race).used = 197 := by decide +kernel
  exact ⟨hend.1, hend.2, (hrun.2.2.2 hend.1).1.symm.trans hend.2⟩

/-- **No deadlock.** Whatever the threads have come to, with or without a limit, there is an order of
turns in which all calls return. -/
theorem calls_can_return (e : StorageEngine) (haccounted : e.Accounted 0)
    (events : List (Reservation.Event τ Timed)) :
    ∃ turns : List τ, (run e (events ++ turns.map (.turn · false))).AtRest := by
  obtain ⟨turns, hrest⟩ := (inBalance_run haccounted events).exists_atRest (sound_script e.setup)
  refine ⟨turns, ?_⟩
  rw [run, Threads.run, Machine.run_append]
  exact hrest

/-- The two threads of `race` can return from the middle of it. -/
theorem race_can_return : ∃ turns : List Bool,
    (run { setup := raceSetup 300 } (race.take 14 ++ turns.map (.turn · false))).AtRest :=
  calls_can_return { setup := raceSetup 300 } (StorageEngine.wf_new _).toAccounted (race.take 14)

end Memory

end Calls

/-! ## Programs of one section -/

namespace Script

variable {α β : Type} {p : Script α} {i : ℕ}

/-- What is done under one lock is one section. -/
theorem oneSection_withLock (h : p.Within i) : (withLock i p).OneSection :=
  h.inside fun result => ⟨rfl, result, rfl⟩

/-- Both branches stay in the section. -/
theorem within_ite {c : Prop} [Decidable c] {q : Script α} (hp : p.Within i) (hq : q.Within i) :
    (if c then p else q).Within i := by
  split_ifs
  · exact hp
  · exact hq

variable (i) (key : Bytes) (now : TimePoint)

/-- A look at the shard stays in the section. -/
theorem within_look : (look i).Within i := ⟨rfl, fun _ => trivial⟩

/-- A write to the shard stays in the section. -/
theorem within_modify (f : Shard → Shard) : (modify i f).Within i := ⟨rfl, fun _ => trivial⟩

/-- Erasing an entry stays in the section. -/
theorem within_eraseEntryLocked (entry : Entry) : (eraseEntryLocked i key entry).Within i :=
  Prog.Within.bind (p := releaseMemory _) trivial fun _ => within_modify i _

/-- Erasing an expired entry stays in the section. -/
theorem within_eraseExpired (entry : Entry) : (eraseExpired i key entry).Within i :=
  (within_eraseEntryLocked i key entry).bind fun _ => trivial

/-- The look-up stays in the section. -/
theorem within_findLive : (findLive i key now).Within i := by
  refine (within_look i).bind fun s => ?_
  cases s.map.lookup key with
  | none => trivial
  | some entry => exact within_ite ((within_eraseExpired i key entry).bind fun _ => trivial) trivial

/-- The end of a write stays in the section. -/
theorem within_storeEntry (value : Bytes) (expiry : Option TimePoint) :
    (storeEntry i key value expiry now).Within i := by
  refine (within_look i).bind fun s => ?_
  have hstored : ∀ f : Shard → Shard, ∀ bytes : ℕ, Prog.Within i (do
      modify i f
      releaseMemory bytes
      return WriteCode.ok) := fun f _ => (within_modify i f).bind fun _ => trivial
  simp only
  split_ifs
  · refine Prog.Within.bind (p := reserveMemory _) (fun _ => trivial) fun granted => ?_
    exact within_ite (hstored _ _) trivial
  · exact hstored _ _

variable {setup : StorageSetup}

/-- `set` is one section. -/
theorem oneSection_set (value : Bytes) (ttl : Option ℤ) (condition : SetCondition) :
    (set setup key value ttl condition now).OneSection := by
  rw [set]
  split_ifs
  · trivial
  · trivial
  · refine oneSection_withLock ((within_findLive _ key now).bind fun _ => ?_)
    refine (within_look _).bind fun s => ?_
    simp only
    split_ifs
    · trivial
    · exact (within_storeEntry _ key now _ _).bind fun _ => trivial

/-- `incr_by` is one section. -/
theorem oneSection_incrBy (delta : ℤ) : (incrBy setup key delta now).OneSection := by
  rw [incrBy]
  split_ifs
  · trivial
  · refine oneSection_withLock ((within_findLive _ key now).bind fun it => ?_)
    cases currentInteger (it.map Entry.value) with
    | none => trivial
    | some current =>
      simp only
      split_ifs
      · trivial
      · trivial
      · refine (within_storeEntry _ key now _ _).bind fun code => ?_
        cases code <;> trivial

/-- `append` is one section. -/
theorem oneSection_append (suffix : Bytes) : (append setup key suffix now).OneSection := by
  rw [append]
  split_ifs
  · trivial
  · refine oneSection_withLock ((within_findLive _ key now).bind fun it => ?_)
    simp only
    split_ifs
    · trivial
    · refine (within_storeEntry _ key now _ _).bind fun code => ?_
      cases code <;> trivial

/-- What the other operations on a key share: they look for a live entry and go on with it. -/
theorem oneSection_findLive {f : Option Entry → Script α}
    (hnone : (f none).Within (setup.shardForKey key))
    (hsome : ∀ entry, (f (some entry)).Within (setup.shardForKey key)) :
    (withLock (setup.shardForKey key)
      (findLive (setup.shardForKey key) key now >>= f)).OneSection := by
  refine oneSection_withLock ((within_findLive _ key now).bind fun it => ?_)
  cases it with
  | none => exact hnone
  | some entry => exact hsome entry

/-- `del` of one key is one section. -/
theorem oneSection_del : (del setup key now).OneSection :=
  oneSection_findLive key now trivial fun entry =>
    (within_eraseEntryLocked _ key entry).bind fun _ => trivial

/-- `expire_at` is one section. -/
theorem oneSection_expireAt (expireAtTp : TimePoint) :
    (expireAt setup key expireAtTp now).OneSection := by
  refine oneSection_findLive key now trivial fun entry => ?_
  simp only
  split_ifs
  · exact (within_eraseExpired _ key entry).bind fun _ => trivial
  · exact (within_modify _ _).bind fun _ => trivial

/-- `expire` is one section. -/
theorem oneSection_expire (ttl : ℤ) : (expire setup key ttl now).OneSection := by
  rw [expire]
  split_ifs
  · exact (oneSection_del key now).map _
  · exact oneSection_expireAt key now _

/-- `persist` is one section. -/
theorem oneSection_persist : (persist setup key now).OneSection := by
  refine oneSection_findLive key now trivial fun entry => ?_
  simp only
  split_ifs
  · trivial
  · exact (within_modify _ _).bind fun _ => trivial

/-- `get` is one section. -/
theorem oneSection_get : (get setup key now).OneSection :=
  oneSection_findLive key now trivial fun _ => (within_modify _ _).bind fun _ => trivial

/-- `ttl` is one section. -/
theorem oneSection_ttl : (ttl setup key now).OneSection := by
  refine oneSection_findLive key now trivial fun entry => ?_
  simp only
  cases entry.expiry <;> trivial

end Script

namespace Calls

/-! ## Calls on single keys -/

/-- A call that looks at one key. -/
def singleKey : Call → Bool
  | .op (.set _ _ _ _) | .op (.get _) | .op (.incrBy _ _) | .op (.append _ _) | .op (.strlen _)
  | .op (.expire _ _) | .op (.expireAt _ _) | .op (.ttl _) | .op (.persist _) => true
  | .op (.del keys) | .op (.exist keys) | .op (.mget keys) => keys.length = 1
  | .op .dbsize | .op .expiresCount | .op .flushdb | .op .snapshot | .activeExpire _ => false

/-- A call on a single key, with its reading of the clock. -/
def KeyCall := { c : Timed // singleKey c.2 = true }

/-- The script of a call on one key. -/
def KeyCall.script (setup : StorageSetup) (c : KeyCall) : Script Reply := c.1.script setup

/-- A loop over one key is one round. -/
theorem oneSection_loop {β : Type} {f : β → Bytes → Script β} {keys : List Bytes}
    (hkeys : keys.length = 1) (h : ∀ b key, (f b key).OneSection) (b : β) :
    (Script.loop f keys b).OneSection := by
  obtain ⟨key, rfl⟩ := List.length_eq_one_iff.mp hkeys
  exact (h b key).map id

/-- Every call on one key is one section. -/
theorem oneSection_script (setup : StorageSetup) (c : KeyCall) : (c.script setup).OneSection := by
  obtain ⟨⟨now, call⟩, hsingle⟩ := c
  show (call.script setup now).OneSection
  cases call with
  | activeExpire => cases hsingle
  | op op =>
    cases op with
    | set key value ttl condition => exact (Script.oneSection_set key now value ttl condition).map _
    | get key => exact (Script.oneSection_get key now).map _
    | del keys =>
      refine (oneSection_loop (of_decide_eq_true hsingle) (fun _ key => ?_) 0).map _
      exact (Script.oneSection_del key now).map _
    | exist keys =>
      refine (oneSection_loop (of_decide_eq_true hsingle) (fun _ key => ?_) 0).map _
      exact (Script.oneSection_get key now).map _
    | mget keys =>
      refine (oneSection_loop (of_decide_eq_true hsingle) (fun _ key => ?_) []).map _
      exact (Script.oneSection_get key now).map _
    | incrBy key delta => exact (Script.oneSection_incrBy key now delta).map _
    | append key suffix => exact (Script.oneSection_append key now suffix).map _
    | strlen key => exact ((Script.oneSection_get key now).map _).map _
    | expire key ttl => exact (Script.oneSection_expire key now ttl).map _
    | expireAt key expireAtTp => exact (Script.oneSection_expireAt key now expireAtTp).map _
    | ttl key => exact (Script.oneSection_ttl key now).map _
    | persist key => exact (Script.oneSection_persist key now).map _
    | dbsize => cases hsingle
    | expiresCount => cases hsingle
    | flushdb => cases hsingle
    | snapshot => cases hsingle

variable {τ : Type} [DecidableEq τ]

/-- The calls one after another on the engine, and what the last call of each thread has returned. -/
def inOrder (e : StorageEngine) (order : List (τ × KeyCall)) : StorageEngine × (τ → Option Reply) :=
  order.foldl (fun b x =>
    ((b.1.call x.2.1.1 x.2.1.2).2, Function.update b.2 x.1 (some (b.1.call x.2.1.1 x.2.1.2).1)))
    (e, fun _ => none)

/-- One more call behind the others. -/
theorem inOrder_snoc (e : StorageEngine) (order : List (τ × KeyCall)) (t : τ) (c : KeyCall) :
    inOrder e (order ++ [(t, c)]) =
      (((inOrder e order).1.call c.1.1 c.1.2).2,
        Function.update (inOrder e order).2 t (some ((inOrder e order).1.call c.1.1 c.1.2).1)) := by
  rw [inOrder, List.foldl_append]
  rfl

/-- Programs that run alone, one after another, are the operations of the engine. -/
theorem serially_eq_inOrder (e : StorageEngine) (hlimit : e.maxMemoryBytes = 0)
    (order : List (τ × KeyCall)) :
    serially (KeyCall.script e.setup) e.toStore order =
        ((inOrder e order).1.toStore, (inOrder e order).2) ∧
      (inOrder e order).1.setup = e.setup := by
  induction order using List.reverseRecOn with
  | nil => exact ⟨rfl, rfl⟩
  | append_singleton order x ih =>
    obtain ⟨t, c⟩ := x
    obtain ⟨hserial, hsetup⟩ := ih
    have hcall := Script.Refines.call c.1.1 c.1.2 (inOrder e order).1
    have hnone : (inOrder e order).1.maxMemoryBytes = 0 := by
      rw [StorageEngine.maxMemoryBytes, hsetup]
      exact hlimit
    have hsolo := hcall.solo
    rw [hsetup, hnone] at hsolo
    rw [serially_snoc, inOrder_snoc, hserial]
    refine ⟨?_, hcall.setup.trans hsetup⟩
    show (((c.1.2.script e.setup c.1.1).solo 0 (inOrder e order).1.toStore).2, _) = _
    simp only [KeyCall.script, Timed.script, hsolo]

/-- **Linearizability.** Without a memory limit, threads make calls on single keys, in any
interleaving of their accesses. At every instant `n` there is a list of calls that explains what the
threads have seen as calls of one thread on the engine: each thread's calls stand in it in their
order, all but perhaps the one that it is in; a thread that is back has the reply that its last call
has there; and when all are back, the shards and the counters are those of the engine. The list only
grows, so a call that has returned before another begins stands before it. -/
theorem single_key_calls_linearizable [Fintype τ] (e : StorageEngine) (haccounted : e.Accounted 0)
    (hlimit : e.maxMemoryBytes = 0) (events : List (Reservation.Event τ KeyCall)) :
    ∃ order : ℕ → List (τ × KeyCall), (∀ n, order n <+: order (n + 1)) ∧ ∀ n,
      let m := Threads.run 0 (KeyCall.script e.setup) e.toStore (events.take n)
      (∀ t, ∃ missing : Option KeyCall, m.started t = callsOf t (order n) ++ missing.toList) ∧
        (∀ t last, m.tasks t = .idle last →
          m.started t = callsOf t (order n) ∧ last = (inOrder e (order n)).2 t) ∧
        (m.AtRest → m.toStore = (inOrder e (order n)).1.toStore) := by
  have hunlimited : e.toStore.used = 0 := haccounted.unlimited hlimit
  obtain ⟨order, hgrows, hall⟩ := exists_linearization hunlimited (oneSection_script e.setup) events
  refine ⟨order, hgrows, fun n => ?_⟩
  have hn := hall n
  have hserial := (serially_eq_inOrder e hlimit (order n)).1
  refine ⟨hn.begun, fun t last htask => ?_, fun hrest => ?_⟩
  · have hback := hn.back t last htask
    rwa [hserial] at hback
  · have hstore := hn.store hrest
    rwa [hserial] at hstore

/-- Two threads increment the same counter; one has to wait for the mutex. -/
def contest : List (Reservation.Event Bool KeyCall) :=
  [.start false ⟨(0, .op (.incrBy [107] 1)), rfl⟩, .start true ⟨(0, .op (.incrBy [107] 1)), rfl⟩] ++
    (List.replicate 20 [.turn false false, .turn true false]).flatten

/-- Where the two increments come to. -/
def contestRun : Threads Bool KeyCall ℕ Shard Reply :=
  Threads.run 0 (KeyCall.script (raceSetup 0)) ({ setup := raceSetup 0 } : StorageEngine).toStore contest

set_option maxRecDepth 100000 in
/-- Both calls have ended, and the counter is 2. -/
theorem contestRun_end : contestRun.AtRest ∧
    ((contestRun.shards 1).map.lookup [107]).map Entry.value = some [50] := by
  decide +kernel

/-- Both increments have happened, one after the other. -/
theorem contest_in_order : contestRun.AtRest ∧
    ((contestRun.shards 1).map.lookup [107]).map Entry.value = some [50] ∧
      ∃ order, (∀ t, contestRun.started t = callsOf t order) ∧
        contestRun.toStore = (inOrder { setup := raceSetup 0 } order).1.toStore := by
  obtain ⟨hrest, hvalue⟩ := contestRun_end
  obtain ⟨order, -, hall⟩ := single_key_calls_linearizable { setup := raceSetup 0 }
    (StorageEngine.wf_new _).toAccounted rfl contest
  have hlast := hall contest.length
  rw [List.take_length] at hlast
  obtain ⟨-, hback, hstore⟩ := hlast
  refine ⟨hrest, hvalue, order contest.length, fun t => ?_, hstore hrest⟩
  obtain ⟨last, htask⟩ := hrest t
  exact (hback t last htask).1

end Calls

end VeloxDb
