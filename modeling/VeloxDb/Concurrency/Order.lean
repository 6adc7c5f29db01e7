import VeloxDb.Commands.Locality
import VeloxDb.Common.Footprints
import VeloxDb.Concurrency.Checkpoints

/-!
# The order of the log under concurrency

The barrier is shared among write commands, so of two commands that are executed at the same time
one may come first in memory and the other first in the log. If they are about a common key, the log
tells another story than the memory. So a command must append in its turn: no other whose record is
still missing may have made a call on one of its keys before it did (`InTurn`). Then its calls can be
exchanged with those that came before, and the memory is as if the commands had been executed one
after the other in the order of their records.

The proof carries along this serial execution: an engine `S` on which each command is executed as a
whole when its record is appended, and what a replay of the log builds, which follows it (`Sim`).
The live engine is `S` after the calls that the commands in flight have made, in their order
(`Ordered.runs`). Both are without the memory limit: a run in which no call is refused for it is the
same without, and so is the replay of a log that fits.
-/

namespace VeloxDb

open Util Recovery

/-- What decides whether a command is safe is visible of the keys of its first call. -/
theorem Safe.congr {T margin now : ℤ} {L L' : StorageEngine} {name : CommandName} {args : List Bytes}
    (setup : StorageSetup) {shardCount : ℕ} {c : StorageCall} {next : c.Answer → Mutation}
    (hm : Commands.mutation name shardCount now args = some (.call c next))
    (hv : ∀ k ∈ c.footprint setup, L'.keyspace.visible now k = L.keyspace.visible now k)
    (h : Safe T margin now L name args) : Safe T margin now L' name args := by
  have hkey : ∀ {k}, k ∈ c.footprint setup → KeyEndures T margin now L k →
      KeyEndures T margin now L' k := by
    intro k hk hend y hy
    rw [hv k hk] at hy
    exact hend y hy
  have hexpire : ∀ {k ttl}, k ∈ c.footprint setup → ExpireSafe T margin now L k ttl →
      ExpireSafe T margin now L' k ttl :=
    fun hk hsafe => ⟨hsafe.1, hsafe.2.1, hsafe.2.2.imp_left (hkey hk)⟩
  unfold Safe at h ⊢
  split at h
  case h_1 => exact h
  -- `INCR`, `DECR`, `APPEND` and `PERSIST`
  case h_2 | h_3 | h_4 | h_5 =>
    cases hm
    exact hkey rfl h
  -- `EXPIRE` and `PEXPIRE`
  case h_6 | h_7 =>
    intro ttl httl
    refine hexpire ?_ (h ttl httl)
    simp only [Commands.mutation, Mutation.expireImpl, httl, Option.some.injEq] at hm
    cases hm
    rfl
  -- `PEXPIREAT`
  case h_8 =>
    intro ms hms
    refine ⟨(h ms hms).1, (h ms hms).2.imp_left (hkey ?_)⟩
    simp only [Commands.mutation, Mutation.pexpireat, hms, Option.some.injEq] at hm
    cases hm
    rfl
  case h_9 => trivial

/-- Every pair of an `MSET` is within the limits for keys and values. -/
def PairsFit (setup : StorageSetup) : List Bytes → Prop
  | key :: value :: rest =>
    setup.keyValid key = true ∧ setup.valueValid value = true ∧ PairsFit setup rest
  | _ => True

/-- The memory limit does not matter for that. -/
theorem PairsFit.unlimited {setup : StorageSetup} {pairs : List Bytes} (h : PairsFit setup pairs) :
    PairsFit setup.unlimited pairs := by
  fun_induction PairsFit setup.unlimited pairs with
  | case1 key value rest ih => exact ⟨h.1, h.2.1, ih h.2.2⟩
  | case2 => trivial

/-- Without a memory limit nothing else can be in the way. -/
theorem Commands.setPairs_of_fit {e : StorageEngine} {now : TimePoint} {pairs : List Bytes} (h : e.WF)
    (hun : e.maxMemoryBytes = 0) (hfit : PairsFit e.setup pairs) :
    (Commands.setPairs now pairs e).1 = .ok := by
  fun_induction Commands.setPairs now pairs e with
  | case1 key value rest e write e' hset hcode ih =>
    have hok : (e.set key value none .always now).1.code = .ok := by rw [hset]; exact hcode
    have hb := (StorageEngine.set_of_ok h hok).2.2
    rw [hset] at hb
    exact ih hb.wf (by rw [StorageEngine.maxMemoryBytes, hb.setup]; exact hun) (hb.setup ▸ hfit.2.2)
  | case2 key value rest e write e' hset hcode =>
    obtain ⟨e'', hset', -⟩ := StorageEngine.set_of_admits h none (.always _) ⟨hfit.1, hfit.2.1, .inl hun⟩
    rw [hset] at hset'
    cases hset'
    exact absurd rfl hcode
  | case3 => rfl

/-- An `MSET` whose pairs fit is not refused. -/
theorem Commands.mset_of_fit {e : StorageEngine} {now : TimePoint} {args : List Bytes} (h : e.WF)
    (hun : e.maxMemoryBytes = 0) (hfit : PairsFit e.setup args.tail) :
    Commands.Quiet now e (Commands.mset e now args) ∨
      Commands.Logs now e .mset args (Commands.mset e now args) := by
  have hcases : Commands.Quiet now e (Commands.mset e now args) ∨ _ := Commands.mset_cases h
  rcases hcases with hquiet | hlogs | ⟨herr, -⟩
  · exact .inl hquiet
  · exact .inr hlogs
  · unfold Commands.mset at herr ⊢
    by_cases hlen : args.length < 3 ∨ args.length % 2 = 0
    · rw [if_pos hlen]
      exact .inl (Commands.quiet_self h _)
    · rw [if_neg hlen, List.drop_one] at herr
      simp only [Commands.setPairs_of_fit h hun hfit, ne_eq, not_true_eq_false, if_false] at herr
      cases herr

/-- An engine can be without some of its keys. -/
theorem StorageEngine.exists_dropped {e : StorageEngine} (h : e.WF) (keys : Set Bytes) :
    ∃ e' : StorageEngine, e'.setup = e.setup ∧ e'.WF ∧ (∀ k ∈ keys, e'.keyspace k = none) ∧
      ∀ k ∉ keys, e'.keyspace k = e.keyspace k := by
  classical
  have hb := (delAll_spec h ((e.entries.map Sigma.fst).filter fun k => decide (k ∈ keys)) 0).1
  refine ⟨_, hb.setup, hb.wf, fun k hk => ?_, fun k hk => ?_⟩
  · rw [hb.keyspace, without]
    split_ifs with hmem
    · rfl
    · cases hfind : e.find k with
      | none => rw [StorageEngine.keyspace, hfind]; rfl
      | some x =>
        refine (hmem (List.mem_filter.mpr ⟨?_, decide_eq_true hk⟩)).elim
        exact List.mem_map.mpr ⟨⟨k, x⟩, h.mem_entries.mpr hfind, rfl⟩
  · rw [hb.keyspace, without, if_neg]
    exact fun hmem => hk (of_decide_eq_true (List.mem_filter.mp hmem).2)

namespace Concurrency

open StorageEngine

variable {ι : Type}

/-- A read drops expired entries only. -/
theorem ReadCall.apply_reclaimed {e : StorageEngine} (h : e.WF) (now : TimePoint) (r : ReadCall) :
    Reclaimed now e (r.apply now e) := by
  cases r with
  | get key => exact (get_spec h key now).2
  | ttl key => exact (ttl_spec h key now).2
  | scanShard i =>
    rw [ReadCall.apply]
    split_ifs with hi
    · exact scanShard_reclaimed h hi [] now
    · exact .refl h
  | activeExpireShard samplePerShard i =>
    rw [ReadCall.apply]
    split_ifs with hi
    · exact activeExpireShard_reclaimed h hi samplePerShard 0 now
    · exact .refl h

/-- The memory limit is nothing to a read. -/
theorem ReadCall.apply_unlimit (e : StorageEngine) (now : TimePoint) (r : ReadCall) :
    r.apply now e.unlimit = (r.apply now e).unlimit := by
  cases r with
  | get key => exact congrArg Prod.snd (get_unlimit e key now)
  | ttl key => exact congrArg Prod.snd (ttl_unlimit e key now)
  | scanShard i =>
    rw [ReadCall.apply, ReadCall.apply, apply_ite unlimit]
    exact if_congr Iff.rfl (congrArg Prod.snd (scanShard_unlimit now ([], e) i)) rfl
  | activeExpireShard samplePerShard i =>
    rw [ReadCall.apply, ReadCall.apply, apply_ite unlimit]
    exact if_congr Iff.rfl
      (congrArg Prod.snd (activeExpireShard_unlimit now samplePerShard (0, e) i)) rfl

/-! ## The condition -/

namespace Access

/-- The keys that a call is about. -/
def footprint (setup : StorageSetup) : Access ι → Set Bytes
  | .call _ _ c => c.footprint setup
  | .read _ _ | .snapshot _ => ∅

/-- Two calls may be about the same key. -/
def meets (setup : StorageSetup) : Access ι → Access ι → Bool
  | .call _ _ c, .call _ _ c' => c.target.meets setup c'.target
  | _, _ => false

end Access

/-- A write command whose record is not in the log yet. -/
def Phase.unlogged : Phase → Bool
  | .mutating _ _ _ => true
  | _ => false

/-- It is the turn of the command `i`: no other whose record is still missing has made a call on one
of its keys before it did. -/
def State.InTurn (s : State ι) (i : ι) : Prop :=
  s.trace.Pairwise fun a b => b.owner = some i → ∀ j ∈ a.owner, j ≠ i →
    (s.phase j).unlogged = true → a.meets s.storage.setup b = false

instance State.decidableInTurn [DecidableEq ι] (s : State ι) (i : ι) : Decidable (s.InTurn i) :=
  inferInstanceAs (Decidable (List.Pairwise _ _))

/-- The command `i` has made a call on the key `k`, and its record is not in the log yet. -/
def State.Holds (s : State ι) (i : ι) (k : Bytes) : Prop :=
  (s.phase i).unlogged = true ∧ ∃ a ∈ s.trace, a.owner = some i ∧ k ∈ a.footprint s.storage.setup

/-- What the steps of write commands and of reads must meet. -/
def Orderly (T : ℤ) (s : State ι) : Action ι → Prop
  -- a refused `MSET` may have stored its first pairs, without a record
  | .command _ now args => now ≤ T ∧
      (CommandName.ofArgs args = some .mset → PairsFit s.storage.setup args.tail)
  | .proceed i _ _ =>
    match s.phase i with
    -- the limit does not refuse it, and its record can be replayed at `T`
    | .mutating request _ (.call c _) =>
      (s.storage.maxMemoryBytes ≠ 0 → c.starved (s.storage.perform request.now c).1 = false) ∧
        ∀ name, CommandName.ofArgs request.args = some name →
          Safe T 0 request.now s.storage name request.args
    -- the end of a command without a record is where that would be
    | .mutating _ _ (.done _ _) => s.InTurn i
    | _ => True
  -- a read drops no item that a command without a record has written
  | .read now _ => now ≤ T ∧
      ∀ i k x, s.Holds i k → s.storage.keyspace k = some x → x.expired now = false
  | .save _ | .rewrite _ => False

/-! ## The calls of the commands in flight -/

/-- A call that has been made, with its answer. -/
structure Performed (ι : Type) where
  owner : ι
  request : Request
  call : StorageCall
  answer : call.Answer

namespace Performed

/-- As the history has it. -/
def access (x : Performed ι) : Access ι := .call x.owner x.request.now x.call

/-- As the program has it. -/
def made (x : Performed ι) : Σ c : StorageCall, c.Answer := ⟨x.call, x.answer⟩

/-- On this engine the call returns its answer, and if it is the first one of its command, that is
safe for a replay at `T`. -/
structure Fits (T : ℤ) (x : Performed ι) (e : StorageEngine) : Prop where
  inRange : x.call.InRange e.setup
  answer : (e.perform x.request.now x.call).1 = x.answer
  safe : ∀ name next, CommandName.ofArgs x.request.args = some name →
    Commands.mutation name e.setup.shardCount x.request.now x.request.args = some (.call x.call next) →
    Safe T 0 x.request.now e name x.request.args

end Performed

/-- The engine has this setup, no memory limit, and stores this. -/
structure Stores (setup : StorageSetup) (K : Keyspace) (e : StorageEngine) : Prop where
  wf : e.WF
  setup : e.setup = setup
  unlimited : e.maxMemoryBytes = 0
  keyspace : e.keyspace = K

namespace Stores

variable {setup : StorageSetup} {K L : Keyspace} {e e' : StorageEngine} {T : ℤ} {x : Performed ι}

/-- Two engines of one setup. -/
theorem peers (h : Stores setup K e) (h' : Stores setup L e') : Peers e e' :=
  ⟨h.wf, h'.wf, h'.setup.trans h.setup.symm, h.unlimited⟩

/-- Another engine of the same setup. -/
theorem of_setup (h : Stores setup K e) (hsetup : e'.setup = e.setup) (hwf : e'.WF) :
    Stores setup e'.keyspace e' := by
  refine ⟨hwf, hsetup.trans h.setup, ?_, rfl⟩
  rw [maxMemoryBytes, hsetup]
  exact h.unlimited

/-- The engine after a call. -/
theorem perform (h : Stores setup K e) (now : TimePoint) (c : StorageCall) :
    Stores setup (e.perform now c).2.keyspace (e.perform now c).2 :=
  have hc := perform_confined h.wf h.unlimited now c
  h.of_setup hc.setup hc.wf

/-- A call fits another engine as well that agrees on its keys, and does the same there. -/
theorem fits (h : Stores setup K e) (h' : Stores setup L e') (hfits : x.Fits T e)
    (hagree : ∀ k ∈ x.call.footprint setup, L k = K k) :
    x.Fits T e' ∧ ∀ k ∈ x.call.footprint setup,
      (e'.perform x.request.now x.call).2.keyspace k = (e.perform x.request.now x.call).2.keyspace k := by
  have hpeers := h.peers h'
  rw [← h.setup] at hagree ⊢
  have hK : ∀ k ∈ x.call.footprint e.setup, e'.keyspace k = e.keyspace k := by
    rw [h.keyspace, h'.keyspace]
    exact hagree
  obtain ⟨hanswer, hafter⟩ := hpeers.perform x.request.now hfits.inRange hK
  refine ⟨⟨hpeers.setup ▸ hfits.inRange, hanswer.trans hfits.answer, fun name next hname hm => ?_⟩, hafter⟩
  rw [hpeers.setup] at hm
  exact (hfits.safe name next hname hm).congr e.setup hm fun k hk => Keyspace.visible_congr (hK k hk) _

end Stores

/-- The calls of write commands, as steps on what is stored. -/
def calls (ι : Type) (T : ℤ) (setup : StorageSetup) : Footprints.Local Bytes (Option Item) (Performed ι) where
  Valid K := ∃ e, Stores setup K e
  footprint x := x.call.footprint setup
  Step x K K' := ∃ e, Stores setup K e ∧ x.Fits T e ∧ (e.perform x.request.now x.call).2.keyspace = K'
  valid := by
    rintro x K K' ⟨e, he, -, rfl⟩
    exact ⟨_, he.perform _ _⟩
  frame := by
    rintro x K K' ⟨e, he, -, rfl⟩ k hk
    rw [(perform_confined he.wf he.unlimited x.request.now x.call).keyspace k (he.setup ▸ hk),
      he.keyspace]
  transfer := by
    rintro x K K' L ⟨e, he, hfits, rfl⟩ ⟨e', he'⟩ hagree
    obtain ⟨hfits', hafter⟩ := he.fits he' hfits hagree
    exact ⟨_, ⟨e', he', hfits', rfl⟩, hafter⟩

section Calls

variable {T : ℤ} {setup : StorageSetup} {K K' : Keyspace} {e : StorageEngine} {x : Performed ι}

/-- A step on what an engine stores is a call on the engine. -/
theorem calls_step_iff (he : Stores setup K e) : (calls ι T setup).Step x K K' ↔
    x.Fits T e ∧ (e.perform x.request.now x.call).2.keyspace = K' := by
  refine ⟨?_, fun h => ⟨e, he, h⟩⟩
  rintro ⟨f, hf, hfits, rfl⟩
  obtain ⟨hfits', hafter⟩ := hf.fits he hfits fun _ _ => rfl
  refine ⟨hfits', funext fun k => ?_⟩
  by_cases hk : k ∈ x.call.footprint setup
  · exact hafter k hk
  · rw [(perform_confined he.wf he.unlimited x.request.now x.call).keyspace k (he.setup ▸ hk),
      (perform_confined hf.wf hf.unlimited x.request.now x.call).keyspace k (hf.setup ▸ hk),
      he.keyspace, hf.keyspace]

/-- **The calls of a program are its run**, if they are made one after the other. -/
theorem run_of_makes {request : Request} {xs : List (Performed ι)} {m : Mutation}
    {result : CommandResult} {record : Option (List Bytes)}
    (hmakes : m.Makes (xs.map Performed.made) (.done result record))
    (hrequest : ∀ x ∈ xs, x.request = request) (he : Stores setup K e)
    (hruns : (calls ι T setup).Runs xs K K') :
    (m.run request.now e).record = record ∧ Stores setup K' (m.run request.now e).storage := by
  induction xs generalizing m K e with
  | nil =>
    cases hmakes
    cases hruns
    exact ⟨rfl, he⟩
  | cons x xs ih =>
    obtain ⟨M, hstep, hxs⟩ := hruns
    obtain ⟨hfits, rfl⟩ := (calls_step_iff he).mp hstep
    obtain rfl := hrequest x List.mem_cons_self
    obtain ⟨owner, request, c, answer⟩ := x
    cases hmakes with
    | cons hmakes =>
      obtain rfl : (e.perform request.now c).1 = answer := hfits.answer
      have hrest := ih hmakes (fun y hy => hrequest y (List.mem_cons_of_mem _ hy)) (he.perform _ _) hxs
      exact hrest

end Calls

/-! ## A command in flight -/

/-- A command in flight has made these calls, of its program `m`, and has `rest` left to do. -/
structure Pending (T : ℤ) (setup : StorageSetup) (request : Request) (name : CommandName) (m : Mutation)
    (made : List (Σ c : StorageCall, c.Answer)) (rest : Mutation) : Prop where
  named : CommandName.ofArgs request.args = some name
  program : Commands.mutation name setup.shardCount request.now request.args = some m
  restart : request.now ≤ T
  mset : name = .mset → PairsFit setup request.args.tail
  makes : m.Makes made rest
  inRange : rest.InRange setup

namespace Pending

variable {T : ℤ} {setup : StorageSetup} {S P : StorageEngine} {request : Request}
  {name : CommandName} {m rest : Mutation} {xs : List (Performed ι)} {K K' : Keyspace}

/-- The command begins. -/
theorem begin (hname : CommandName.ofArgs request.args = some name)
    (hm : Commands.mutation name setup.shardCount request.now request.args = some m)
    (hT : request.now ≤ T) (hmset : name = .mset → PairsFit setup request.args.tail) :
    Pending T setup request name m [] m :=
  ⟨hname, hm, hT, hmset, .nil m, Mutation.inRange_mutation hm⟩

/-- It makes its next call. -/
theorem call {made : List (Σ c : StorageCall, c.Answer)} {c : StorageCall} {next : c.Answer → Mutation}
    (h : Pending T setup request name m made (.call c next)) (answer : c.Answer) :
    Pending T setup request name m (made ++ [⟨c, answer⟩]) (next answer) :=
  ⟨h.named, h.program, h.restart, h.mset, h.makes.concat answer, h.inRange.2 answer⟩

/-- A command that has made its first call was safe then; one without a call has no record. -/
theorem safe {result : CommandResult} {record : Option (List Bytes)}
    (h : Pending T setup request name m (xs.map Performed.made) (.done result record))
    (hrequest : ∀ x ∈ xs, x.request = request) (hS : Stores setup K S)
    (hruns : (calls ι T setup).Runs xs K K') :
    record = none ∨ Safe T 0 request.now S name request.args := by
  obtain ⟨hnamed, hprogram, -, -, hmakes, -⟩ := h
  cases xs with
  | nil =>
    cases hmakes
    exact .inl (Mutation.record_of_done hprogram)
  | cons x xs =>
    obtain ⟨M, hstep, -⟩ := hruns
    have hfits := ((calls_step_iff hS).mp hstep).1
    obtain rfl := hrequest x List.mem_cons_self
    obtain ⟨owner, request, c, answer⟩ := x
    cases hmakes with
    | cons _ => exact .inr (hfits.safe name _ hnamed (hS.setup ▸ hprogram))

/-- The replay goes along when its record is appended. -/
theorem append (env : Env) {result : CommandResult} {record : Option (List Bytes)}
    (h : Pending T setup request name m (xs.map Performed.made) (.done result record))
    (hrequest : ∀ x ∈ xs, x.request = request) (hS : Stores setup K S)
    (hruns : (calls ι T setup).Runs xs K K') (hsim : Sim T 0 none S P) :
    ∃ S' P', Stores setup K' S' ∧ (∀ r ∈ record, IsWrite r) ∧
      applyRecords env T P record.toList = some P' ∧ Sim T 0 none S' P' := by
  obtain ⟨hrecord, hstores⟩ := run_of_makes h.makes hrequest hS hruns
  refine ⟨(m.run request.now S).storage, ?_⟩
  have hpast := Keyspace.pastBy_of_le S.keyspace h.restart
  have heff : Commands.effect name env.config (replayContext env S) request.now request.args
      = some (m.run request.now S) := Mutation.effect_eq_run (hS.setup ▸ h.program)
  have hcases : Commands.Quiet request.now S (m.run request.now S) ∨
      Commands.Logs request.now S name request.args (m.run request.now S) := by
    rcases Commands.effect_cases hS.wf heff with hquiet | hlogs | ⟨rfl, -, -⟩
    · exact .inl hquiet
    · exact .inr hlogs
    · rw [← Option.some.inj heff]
      exact Commands.mset_of_fit hS.wf hS.unlimited (hS.setup ▸ h.mset rfl)
  subst hrecord
  rcases hcases with ⟨hrec, hre⟩ | hlogs
  · rw [hrec]
    exact ⟨P, hstores, nofun, rfl, hsim.reclaimed hpast (fun _ => .inl hS.unlimited) hre⟩
  · obtain ⟨r, hr⟩ := hlogs.recorded
    have hsafe := (h.safe hrequest hS hruns).resolve_left (by rw [hr]; exact nofun)
    obtain ⟨r, P', hrec, happly, hsim'⟩ := hsim.logs_within le_rfl hpast h.named hsafe hlogs
    refine ⟨P', hstores, fun r hr => hlogs.isWrite h.named hr, ?_, hsim'⟩
    rw [hrec]
    simpa [applyRecords] using happly

end Pending

/-! ## The invariant -/

variable [DecidableEq ι]

/-- The calls of one command. -/
def callsOf (i : ι) (made : List (Performed ι)) : List (Performed ι) := made.filter fun x => x.owner = i

/-- The live engine is the serial engine `S` after the calls of the commands in flight, and the replay
of the log, which has built `P`, follows `S`; both without the memory limit. -/
structure Ordered (env : Env) (T : ℤ) (s : State ι) (S P : StorageEngine) (made : List (Performed ι)) :
    Prop where
  attached : s.aof.Attached s.fs (logText s.log)
  replay : applyRecords env T (freshStorage env).unlimit (s.log.map Prod.snd) = some P
  writes : ∀ p ∈ s.log, IsWrite p.2
  sim : Sim T 0 none S P
  serial : Stores s.storage.setup.unlimited S.keyspace S
  live : s.storage.unlimit.WF
  runs : (calls ι T s.storage.setup.unlimited).Runs made S.keyspace s.storage.keyspace
  traced : (made.map Performed.access).Sublist s.trace
  mode : ∀ i, (s.phase i).mode ≠ .exclusive
  owners : ∀ x ∈ made, ∃ changed rest, s.phase x.owner = .mutating x.request changed rest
  pending : ∀ i request changed rest, s.phase i = .mutating request changed rest →
    ∃ name m, Pending T s.storage.setup.unlimited request name m
      ((callsOf i made).map Performed.made) rest

namespace Ordered

variable {env : Env} {T : ℤ} {s t s' : State ι} {S S' P P' : StorageEngine} {i : ι}
  {made made' : List (Performed ι)}

/-- The live engine without its limit. -/
theorem stores (h : Ordered env T s S P made) :
    Stores s.storage.setup.unlimited s.storage.keyspace s.storage.unlimit := ⟨h.live, rfl, rfl, rfl⟩

/-- The command `i` takes a step. -/
theorem move {p : Phase} (h : Ordered env T s S P made) (hphase : t.phase = s.phase)
    (hsetup : t.storage.setup.unlimited = s.storage.setup.unlimited) (hmode : p.mode ≠ .exclusive)
    (hatt : t.aof.Attached t.fs (logText t.log))
    (hreplay : applyRecords env T (freshStorage env).unlimit (t.log.map Prod.snd) = some P')
    (hwrites : ∀ p ∈ t.log, IsWrite p.2)
    (hsim : Sim T 0 none S' P') (hserial : Stores s.storage.setup.unlimited S'.keyspace S')
    (hlive : t.storage.unlimit.WF)
    (hruns : (calls ι T s.storage.setup.unlimited).Runs made' S'.keyspace t.storage.keyspace)
    (htraced : (made'.map Performed.access).Sublist t.trace)
    (hothers : ∀ j ≠ i, callsOf j made' = callsOf j made)
    (hself : ∀ x ∈ callsOf i made', ∃ changed rest, p = .mutating x.request changed rest)
    (hpending : ∀ request changed rest, p = .mutating request changed rest →
      ∃ name m, Pending T s.storage.setup.unlimited request name m
        ((callsOf i made').map Performed.made) rest) :
    Ordered env T (t.setPhase i p) S' P' made' := by
  have hother : ∀ {j}, j ≠ i → (t.setPhase i p).phase j = s.phase j := by
    intro j hj
    rw [State.phase_setPhase_of_ne t p hj, hphase]
  have hset : (t.setPhase i p).storage.setup.unlimited = s.storage.setup.unlimited := hsetup
  refine ⟨hatt, hreplay, hwrites, hsim, hset ▸ hserial, hlive, hset ▸ hruns, htraced, fun j => ?_,
    fun x hx => ?_, fun j request changed rest hj => ?_⟩
  · by_cases hji : j = i
    · subst hji
      rwa [State.phase_setPhase_self]
    · rw [hother hji]
      exact h.mode j
  · have hown : x ∈ callsOf x.owner made' := List.mem_filter.mpr ⟨hx, by simp⟩
    by_cases hji : x.owner = i
    · rw [hji, State.phase_setPhase_self]
      exact hself x (hji ▸ hown)
    · rw [hothers _ hji] at hown
      rw [hother hji]
      exact h.owners x (List.mem_of_mem_filter hown)
  · rw [hset]
    by_cases hji : j = i
    · subst hji
      rw [State.phase_setPhase_self] at hj
      exact hpending request changed rest hj
    · rw [hother hji] at hj
      rw [hothers j hji]
      exact h.pending j request changed rest hj

/-- Only a command in flight has made calls that count. -/
theorem callsOf_eq_nil (h : Ordered env T s S P made)
    (hphase : (s.phase i).unlogged = false) : callsOf i made = [] := by
  refine List.filter_eq_nil_iff.mpr fun x hx hxi => ?_
  obtain ⟨changed, rest, hmut⟩ := h.owners x hx
  rw [of_decide_eq_true hxi] at hmut
  rw [hmut] at hphase
  cases hphase

/-- All calls of a command are of its request. -/
theorem request_eq (h : Ordered env T s S P made) {request : Request} {changed : Bool} {rest : Mutation}
    (hphase : s.phase i = .mutating request changed rest) : ∀ x ∈ callsOf i made, x.request = request := by
  intro x hx
  obtain ⟨hmem, hxi⟩ := List.mem_filter.mp hx
  obtain ⟨_, _, hmut⟩ := h.owners x hmem
  rw [of_decide_eq_true hxi, hphase] at hmut
  cases hmut
  rfl

/-- A command that begins. -/
theorem command {now : TimePoint} {args : List Bytes} (h : Ordered env T s S P made)
    (horderly : Orderly T s (.command i now args)) (hstep : s.command i now args = some s') :
    Ordered env T s' S P made := by
  obtain ⟨hT, hmset⟩ := horderly
  unfold State.command at hstep
  split at hstep
  case h_2 => cases hstep
  case h_1 program barrier hidle hprogram hlock =>
    cases hstep
    obtain ⟨name, hname, hm⟩ := Option.bind_eq_some_iff.mp hprogram
    have hnil : callsOf i made = [] := h.callsOf_eq_nil (by rw [hidle]; rfl)
    refine h.move rfl rfl nofun h.attached h.replay h.writes h.sim h.serial h.live h.runs h.traced
      (fun _ _ => rfl) ?_ ?_
    · rw [hnil]
      exact fun x hx => absurd hx List.not_mem_nil
    · rintro _ _ _ ⟨⟩
      rw [hnil]
      refine ⟨name, program, .begin hname hm hT ?_⟩
      rintro rfl
      exact (hmset hname).unlimited

/-- A call of a command. -/
theorem perform {request : Request} {changed : Bool} {c : StorageCall} {next : c.Answer → Mutation}
    (h : Ordered env T s S P made) (hphase : s.phase i = .mutating request changed (.call c next))
    (hgranted : s.storage.maxMemoryBytes ≠ 0 → c.starved (s.storage.perform request.now c).1 = false)
    (hsafe : ∀ name, CommandName.ofArgs request.args = some name →
      Safe T 0 request.now s.storage name request.args) :
    ∃ made', Ordered env T (s.perform i request changed c next) S P made' := by
  obtain ⟨name, m, hp⟩ := h.pending i _ _ _ hphase
  have hperform : s.storage.unlimit.perform request.now c
      = (s.storage.perform request.now c).map id unlimit := by
    refine perform_unlimit ?_
    by_cases hun : s.storage.maxMemoryBytes = 0
    · exact (perform_of_room request.now (.inl hun)).1
    · exact hgranted hun
  let x : Performed ι := ⟨i, request, c, (s.storage.perform request.now c).1⟩
  have hown : callsOf i (made ++ [x]) = callsOf i made ++ [x] := by simp [callsOf, x]
  have hafter := h.stores.perform request.now c
  have hstep : (calls ι T s.storage.setup.unlimited).Step x s.storage.keyspace
      (s.storage.unlimit.perform request.now c).2.keyspace := by
    refine (calls_step_iff h.stores).mpr ⟨⟨hp.inRange.1, ?_, fun name next hname hm => ?_⟩, rfl⟩
    · show (s.storage.unlimit.perform request.now c).1 = _
      rw [hperform]
      rfl
    · exact (hsafe name hname).congr s.storage.setup hm fun k _ => rfl
  rw [hperform] at hafter hstep
  refine ⟨made ++ [x], h.move rfl hafter.setup nofun h.attached h.replay h.writes h.sim h.serial
    hafter.wf (h.runs.append ⟨_, hstep, rfl⟩) ?_ (fun j hj => ?_) (fun y hy => ?_) ?_⟩
  · rw [List.map_append]
    exact h.traced.append (List.Sublist.refl _)
  · simp [callsOf, x, Ne.symm hj]
  · rw [hown, List.mem_append, List.mem_singleton] at hy
    rcases hy with hy | rfl
    · rw [h.request_eq hphase y hy]
      exact ⟨_, _, rfl⟩
    · exact ⟨_, _, rfl⟩
  · rintro _ _ _ ⟨⟩
    rw [hown, List.map_append]
    exact ⟨name, m, hp.call _⟩

/-- Nothing that is still to be recorded comes before the calls of a command whose turn it is. -/
theorem first (h : Ordered env T s S P made) (hturn : s.InTurn i) :
    ∃ K, (calls ι T s.storage.setup.unlimited).Runs (callsOf i made) S.keyspace K ∧
      (calls ι T s.storage.setup.unlimited).Runs (made.filter fun x => !decide (x.owner = i)) K
        s.storage.keyspace := by
  refine h.runs.first ⟨S, h.serial⟩ (fun x => decide (x.owner = i)) ?_
  have hpairs := List.pairwise_map.mp (List.Pairwise.sublist h.traced hturn)
  refine hpairs.imp_of_mem fun {x y} hx _ hxy hxi hyi => ?_
  obtain ⟨_, _, hmut⟩ := h.owners x hx
  have hapart := Target.notMem_of_meets (hxy (congrArg some (of_decide_eq_true hyi)) x.owner rfl
    (of_decide_eq_false hxi) (by rw [hmut]; rfl))
  show ∀ k ∈ x.call.footprint s.storage.setup.unlimited, k ∉ y.call.footprint s.storage.setup.unlimited
  rw [StorageCall.footprint_unlimited, StorageCall.footprint_unlimited]
  exact hapart

/-- The command has its record in the log, if it has one; the serial engine executes the whole of it. -/
theorem commit {request : Request} {changed : Bool} {result : CommandResult}
    {record : Option (List Bytes)} (h : Ordered env T s S P made)
    (hphase : s.phase i = .mutating request changed (.done result record)) (hturn : s.InTurn i)
    (hsame : t.phase = s.phase) (hstorage : t.storage = s.storage) (htrace : t.trace = s.trace)
    (hatt : t.aof.Attached t.fs (logText t.log))
    (hlog : t.log = s.log ++ record.toList.map (Prod.mk i)) (completion : Completion) :
    ∃ S' P' made', Ordered env T (t.setPhase i (.logged completion)) S' P' made' := by
  obtain ⟨name, m, hp⟩ := h.pending i _ _ _ hphase
  obtain ⟨K, hgroup, hrest⟩ := h.first hturn
  obtain ⟨S', P', hS', hwrite, happly, hsim⟩ :=
    hp.append env (h.request_eq hphase) h.serial hgroup h.sim
  have hreplay : applyRecords env T (freshStorage env).unlimit (t.log.map Prod.snd) = some P' := by
    rw [hlog, List.map_append, List.map_map, applyRecords_append, h.replay, Option.bind_some]
    simpa using happly
  have hwrites : ∀ p ∈ t.log, IsWrite p.2 := by
    intro p hmem
    rw [hlog, List.mem_append, List.mem_map] at hmem
    rcases hmem with hmem | ⟨r, hr, rfl⟩
    · exact h.writes p hmem
    · exact hwrite r (Option.mem_toList.mp hr)
  obtain rfl := hS'.keyspace
  refine ⟨S', P', made.filter fun x => !decide (x.owner = i), h.move hsame (by rw [hstorage]) nofun
    hatt hreplay hwrites hsim hS' ?_ ?_ ?_ (fun j hj => ?_) (fun x hx => ?_) nofun⟩
  · rw [hstorage]
    exact h.live
  · rw [hstorage]
    exact hrest
  · rw [htrace]
    exact (List.filter_sublist.map _).trans h.traced
  · rw [callsOf, List.filter_filter, callsOf]
    refine List.filter_congr fun x _ => ?_
    by_cases hxj : x.owner = j
    · simp [hxj, hj]
    · simp [hxj]
  · obtain ⟨hmem, hxi⟩ := List.mem_filter.mp hx
    have hne := (List.mem_filter.mp hmem).2
    rw [hxi] at hne
    cases hne

/-- A command whose record is appended. -/
theorem persist {request : Request} {completion : Completion} (h : Ordered env T s S P made)
    (hen : env.config.persistence.aofEnabled = true)
    (hphase : s.phase i = .mutating request completion.changed (.done completion.result completion.record))
    (hturn : s.InTurn i) (hstep : s.persist env i completion = some s') :
    ∃ S' P' made', Ordered env T s' S' P' made' := by
  unfold State.persist at hstep
  split at hstep
  · next hnone =>
    cases hstep
    exact h.commit hphase hturn rfl rfl rfl h.attached (by simp [hnone]) completion
  · next record hrecord =>
    split at hstep
    · cases hstep
    · next status aof fs hrun =>
      obtain ⟨plan, -, hcalm, hlog⟩ := (Aof.spec_append h.attached hen record).of_calmly hrun
      have hok : status.isOk = true := (hcalm rfl).2
      rw [if_pos hok] at hstep
      cases hstep
      have hatt : aof.Attached fs (logText (s.log ++ [(i, record)])) := by
        rw [show logText (s.log ++ [(i, record)]) = logText s.log ++ Resp.encodeCommand record by
          simp [logText]]
        exact hlog hok
      refine h.commit hphase hturn ?_ ?_ ?_ hatt ?_ completion
      · rfl
      · rfl
      · rfl
      · simp [hrecord]

/-- A command that ends. -/
theorem finish {completion : Completion} (h : Ordered env T s S P made)
    (hphase : s.phase i = .logged completion) : Ordered env T (s.finish i completion) S P made := by
  have hnil : callsOf i made = [] := h.callsOf_eq_nil (by rw [hphase]; rfl)
  refine h.move rfl rfl nofun h.attached h.replay h.writes h.sim h.serial h.live h.runs h.traced
    (fun _ _ => rfl) ?_ nofun
  rw [hnil]
  exact fun x hx => absurd hx List.not_mem_nil

/-- The next step of a connection. -/
theorem proceed {order : IterationOrder} {now : TimePoint} (h : Ordered env T s S P made)
    (hen : env.config.persistence.aofEnabled = true) (horderly : Orderly T s (.proceed i order now))
    (hstep : s.proceed env i order now = some s') : ∃ S' P' made', Ordered env T s' S' P' made' := by
  have hmode := h.mode i
  unfold State.proceed at hstep
  split at hstep
  case h_4 request changed c next hphase =>
    cases hstep
    simp only [Orderly, hphase] at horderly
    exact ⟨S, P, h.perform hphase horderly.1 horderly.2⟩
  case h_5 request changed result record hphase =>
    simp only [Orderly, hphase] at horderly
    exact h.persist hen hphase horderly hstep
  case h_6 completion hphase => cases hstep; exact ⟨S, P, made, h.finish hphase⟩
  case h_1 | h_2 | h_3 => cases hstep
  -- the phases of `SAVE` and `BGREWRITEAOF`
  all_goals
    rename_i hphase
    rw [hphase] at hmode
    exact absurd rfl hmode

/-- A key on which a call counts is held. -/
theorem holds (h : Ordered env T s S P made) {x : Performed ι} {k : Bytes} (hx : x ∈ made)
    (hk : k ∈ x.call.footprint s.storage.setup.unlimited) : s.Holds x.owner k := by
  obtain ⟨changed, rest, hmut⟩ := h.owners x hx
  refine ⟨by rw [hmut]; rfl, x.access, h.traced.subset (List.mem_map_of_mem hx), rfl, ?_⟩
  rwa [StorageCall.footprint_unlimited] at hk

/-- A read: the serial engine drops what the live engine does. -/
theorem read {now : TimePoint} {r : ReadCall} (h : Ordered env T s S P made)
    (horderly : Orderly T s (.read now r)) : ∃ S', Ordered env T (s.read now r) S' P made := by
  obtain ⟨hT, hfresh⟩ := horderly
  have hre := r.apply_reclaimed h.live now
  rw [r.apply_unlimit] at hre
  have hkeyspace : (s.read now r).storage.keyspace = (r.apply now s.storage).keyspace := rfl
  let dropped : Set Bytes := { k | (r.apply now s.storage).keyspace k ≠ s.storage.keyspace k }
  have hgone : ∀ k ∈ dropped, (r.apply now s.storage).keyspace k = none ∧
      s.storage.keyspace.visible now k = none := fun k hk => (hre.reclaims k).resolve_left hk
  -- no call that counts is on a key that is dropped
  have hfree : ∀ k ∈ dropped, ∀ x ∈ made, k ∉ x.call.footprint s.storage.setup.unlimited := by
    intro k hk x hx hkx
    obtain ⟨hnone, hv⟩ := hgone k hk
    cases hitem : s.storage.keyspace k with
    | none => exact hk (by rw [hnone, hitem])
    | some y =>
      have hexp := Keyspace.visible_eq_none.mp hv y hitem
      rw [hfresh _ k y (h.holds hx hkx) hitem] at hexp
      cases hexp
  obtain ⟨S', hsetup, hwf, hdrop, hkeep⟩ := exists_dropped h.serial.wf dropped
  have hreS : Reclaimed now S S' := by
    refine ⟨hsetup, hwf, fun k => ?_⟩
    by_cases hk : k ∈ dropped
    · refine .inr ⟨hdrop k hk, ?_⟩
      rw [Keyspace.visible_congr (h.runs.frame (hfree k hk)).symm]
      exact (hgone k hk).2
    · exact .inl (hkeep k hk)
  have hserial := h.serial.of_setup hsetup hwf
  obtain ⟨K, hruns, hchanged, hsame⟩ := h.runs.change ⟨S', hserial⟩ hfree hkeep
  have hfinal : K = (r.apply now s.storage).keyspace := by
    funext k
    by_cases hk : k ∈ dropped
    · rw [hchanged k hk, hdrop k hk, (hgone k hk).1]
    · rw [hsame k hk, not_not.mp hk]
  have hset : (s.read now r).storage.setup.unlimited = s.storage.setup.unlimited := hre.setup
  refine ⟨S', h.attached, h.replay, h.writes,
    h.sim.reclaimed (Keyspace.pastBy_of_le _ hT) (fun _ => .inl h.serial.unlimited) hreS, hset ▸ hserial,
    hre.wf, ?_, h.traced.trans (List.sublist_append_left _ _), h.mode, h.owners, hset ▸ h.pending⟩
  rw [hset, hkeyspace, ← hfinal]
  exact hruns

/-- **Every orderly step keeps the invariant.** -/
theorem next {a : Action ι} (h : Ordered env T s S P made)
    (hen : env.config.persistence.aofEnabled = true) (horderly : Orderly T s a) :
    ∃ S' P' made', Ordered env T (s.next env a) S' P' made' := by
  unfold State.next
  cases hstep : s.step env a with
  | none => exact ⟨S, P, made, h⟩
  | some s' =>
    rw [Option.getD_some]
    cases a with
    | command i now args => exact ⟨S, P, made, h.command horderly hstep⟩
    | save i => exact horderly.elim
    | rewrite i => exact horderly.elim
    | proceed i order now => exact h.proceed hen horderly hstep
    | read now r =>
      cases hstep
      obtain ⟨S', h'⟩ := h.read horderly
      exact ⟨S', P, made, h'⟩

/-- The invariant holds when the log of a fresh process is empty. -/
theorem of_started (h : s.Started env) (hbase : s.base = []) (hstorage : s.storage = freshStorage env)
    (T : ℤ) : Ordered env T s s.storage.unlimit s.storage.unlimit [] := by
  have hwf : s.storage.unlimit.WF := hstorage ▸ (wf_freshStorage env).unlimit
  refine ⟨?_, ?_, ?_, Sim.of_empty hwf ?_, ⟨hwf, rfl, rfl, rfl⟩, hwf, rfl, List.nil_sublist _, fun i => ?_,
    fun x hx => absurd hx List.not_mem_nil, fun i request changed rest hi => ?_⟩
  · have hatt := h.attached
    rw [hbase] at hatt
    rw [h.log]
    exact hatt
  · rw [h.log, hstorage]
    rfl
  · rw [h.log]
    exact fun p hp => absurd hp List.not_mem_nil
  · rw [hstorage]
    exact keyspace_freshStorage env
  · rw [h.idle]
    exact nofun
  · rw [h.idle] at hi
    cases hi

/-- The replay under the memory limit, if the log fits. -/
theorem replays (h : Ordered env T s S P made)
    (hsafe : pathIsSafe env.config.persistence.aofPath = true)
    (hfits : env.config.storage.maxMemoryBytes ≠ 0 → LogFits env s.fs) :
    ∃ P', ReplaysTo env T s.fs (s.log.map Prod.snd) P' ∧ P'.keyspace = P.keyspace := by
  have hlog : s.fs.read .aof = some ((s.log.map Prod.snd).flatMap Resp.encodeCommand) := by
    rw [h.attached.contents]
    simp [logText, List.flatMap_map]
  have hroom : (freshStorage env).HasRoom ((s.log.map Prod.snd).map recordCharge).sum := by
    by_cases hun : env.config.storage.maxMemoryBytes = 0
    · exact .inl hun
    · obtain ⟨records, hread, hsum⟩ := hfits hun
      rw [hlog, Option.some.injEq] at hread
      obtain rfl := Resp.flatMap_encodeCommand_inj hread
      exact .inr ((Nat.zero_add _).trans_le hsum)
  have hwrites : ∀ record ∈ s.log.map Prod.snd, IsWrite record := by
    intro record hmem
    obtain ⟨p, hp, rfl⟩ := List.mem_map.mp hmem
    exact h.writes p hp
  obtain ⟨P', happly, rfl⟩ := applyRecords_unlimit hwrites hroom h.replay
  exact ⟨P', replaysTo_of_applyRecords hsafe hlog happly, rfl⟩

end Ordered

/-! ## Runs -/

/-- A `SET` without options. -/
def Request.plain (request : Request) : Bool :=
  CommandName.ofArgs request.args = some .set ∧ request.args.length = 3

end Concurrency

end VeloxDb
