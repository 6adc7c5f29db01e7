import VeloxDb.Recovery.Records

/-!
# Error replies

A command that replies with an error has changed nothing and logged nothing: by the case analysis
over the commands, a write without a record drops at most expired entries. The exception is `MSET`,
which stores its pairs one at a time and stops at the first that is refused. Which pairs are stored
before that is a matter of their sizes and of the memory that the entries of the engine take; the
list of values it holds is enough to say it.
-/

namespace VeloxDb

open Decimal Util FileProgram Keyed Recovery

/-! ## The pairs that are stored -/

/-- The value of every key. -/
abbrev Holdings := List (Σ _ : Bytes, Bytes)

namespace Holdings

/-- The sizes and the memory limit let a pair in. -/
def accepts (setup : StorageSetup) (l : Holdings) (key value : Bytes) : Bool :=
  setup.keyValid key && setup.valueValid value &&
    (setup.config.maxMemoryBytes == 0 ||
      decide (weight entryMemory (l.kerase key) + entryMemory key value
        ≤ setup.config.maxMemoryBytes))

/-- The pairs in front of the first one that is not let in. -/
def taken (setup : StorageSetup) : Holdings → List Bytes → List (Bytes × Bytes)
  | l, key :: value :: rest =>
    if l.accepts setup key value then (key, value) :: taken setup (l.kinsert key value) rest else []
  | _, _ => []

/-- Some pair is not let in. -/
def refuses (setup : StorageSetup) : Holdings → List Bytes → Bool
  | l, key :: value :: rest => !l.accepts setup key value || refuses setup (l.kinsert key value) rest
  | _, _ => false

end Holdings

namespace StorageEngine

/-- The values of an engine, those of expired entries as well. -/
def holdings (e : StorageEngine) : Holdings := e.entries.map fun p => ⟨p.1, p.2.value⟩

/-- The list is that of the engine, in any order. -/
structure Pays (l : Holdings) (e : StorageEngine) : Prop where
  nodup : l.NodupKeys
  lookup : ∀ k, l.dlookup k = (e.keyspace k).map Item.value

variable {e e' : StorageEngine} {l : Holdings} {key value : Bytes} {now : TimePoint}

theorem pays_holdings (h : e.WF) : Pays e.holdings e where
  nodup := List.NodupKeys.map₂ (fun _ => Entry.value) _ h.nodupKeys_entries
  lookup k := by
    have hvalue : e.holdings.dlookup k = (e.entries.dlookup k).map Entry.value :=
      List.dlookup_map₂ (δ := fun _ => Bytes) (f := fun _ => Entry.value) k
    rw [hvalue, h.dlookup_entries, keyspace, Option.map_map]
    rfl

theorem Pays.becomes (hp : Pays l e) {expiry : Option TimePoint}
    (hb : Becomes e e' (Function.update e.keyspace key (some ⟨value, expiry⟩))) :
    Pays (l.kinsert key value) e' where
  nodup := List.kinsert_nodupKeys key value hp.nodup
  lookup k := by
    rw [hb.keyspace]
    by_cases hk : k = key
    · subst hk
      rw [List.dlookup_kinsert, Function.update_self]
      rfl
    · rw [List.dlookup_kinsert_ne hk, Function.update_of_ne hk, hp.lookup]

/-- The list shows the memory of all entries but one. -/
theorem Pays.weight_kerase (hp : Pays l e) (h : e.WF) (k : Bytes) :
    weight entryMemory (l.kerase k) = e.memoryExcept k := by
  have hvalue : ∀ j, (l.kerase k).dlookup j = ((e.entries.kerase k).dlookup j).map Entry.value := by
    intro j
    by_cases hjk : j = k
    · subst hjk
      rw [List.dlookup_kerase _ hp.nodup, List.dlookup_kerase _ h.nodupKeys_entries]
      rfl
    · rw [List.dlookup_kerase_ne hjk, List.dlookup_kerase_ne hjk, hp.lookup, h.dlookup_entries,
        keyspace, Option.map_map]
      rfl
  apply le_antisymm
  · refine weight_le_of_lookup (hp.nodup.kerase k) fun j v hj => ?_
    rw [hvalue, Option.map_eq_some_iff] at hj
    obtain ⟨x, hx, rfl⟩ := hj
    exact ⟨x, hx, le_rfl⟩
  · refine weight_le_of_lookup (h.nodupKeys_entries.kerase k) fun j x hj => ?_
    exact ⟨x.value, by rw [hvalue, hj]; rfl, le_rfl⟩

theorem Pays.accepts_iff (hp : Pays l e) (h : e.WF) (key value : Bytes) :
    l.accepts e.setup key value = true ↔ e.Admits key value := by
  simp only [Holdings.accepts, Bool.and_eq_true, Bool.or_eq_true, beq_iff_eq, decide_eq_true_eq,
    hp.weight_kerase h]
  exact ⟨fun hc => ⟨hc.1.1, hc.1.2, hc.2⟩, fun ha => ⟨⟨ha.keyValid, ha.valueValid⟩, ha.fits⟩⟩

end StorageEngine

/-- One pair after the other is stored, without an expiry. -/
def Keyspace.storeAll (pairs : List (Bytes × Bytes)) (K : Keyspace) : Keyspace :=
  pairs.foldl (fun K pair => Function.update K pair.1 (some ⟨pair.2, none⟩)) K

/-- Of several values of a key, the last counts. -/
theorem Keyspace.storeAll_apply (pairs : List (Bytes × Bytes)) (K : Keyspace) (k : Bytes) :
    K.storeAll pairs k = ((pairs.reverse.lookup k).map fun v => ⟨v, none⟩).or (K k) := by
  induction pairs using List.reverseRecOn with
  | nil => rfl
  | append_singleton pairs pair ih =>
    obtain ⟨key, value⟩ := pair
    rw [List.reverse_concat, storeAll, List.foldl_concat, List.lookup_cons, ← storeAll]
    by_cases hk : k = key
    · subst hk
      simp
    · have hbeq : (k == key) = false := by simpa using hk
      rw [Function.update_of_ne hk, ih, hbeq]

/-- Storing pairs shows what was there before if it is the same. -/
theorem Keyspace.visible_storeAll_iff {now : TimePoint} (pairs : List (Bytes × Bytes)) (K : Keyspace) :
    (K.storeAll pairs).visible now = K.visible now ↔
      ∀ k v, pairs.reverse.lookup k = some v → K.visible now k = some ⟨v, none⟩ := by
  constructor
  · intro h k v hk
    rw [← h, Keyspace.visible_eq_some, storeAll_apply, hk]
    exact ⟨rfl, rfl⟩
  · intro h
    funext k
    cases hk : pairs.reverse.lookup k with
    | none => rw [Keyspace.visible, storeAll_apply, hk]; rfl
    | some v =>
      rw [h k v hk, Keyspace.visible_eq_some, storeAll_apply, hk]
      exact ⟨rfl, rfl⟩

namespace Commands

/-- **What the loop of `MSET` does**: the pairs that are let in are stored, and the reply is an
error if one is not. -/
theorem setPairs_spec {e : StorageEngine} (h : e.WF) {l : Holdings} (hp : StorageEngine.Pays l e)
    (now : TimePoint) (pairs : List Bytes) :
    ((setPairs now pairs e).1 = .ok ↔ l.refuses e.setup pairs = false) ∧
      (setPairs now pairs e).2.keyspace.visible now
        = (e.keyspace.storeAll (l.taken e.setup pairs)).visible now := by
  fun_induction setPairs now pairs e generalizing l with
  | case1 key value rest e write e' hset hcode ih =>
    have hok : (e.set key value none .always now).1.code = .ok := by rw [hset]; exact hcode
    obtain ⟨-, hadmits, hb⟩ := StorageEngine.set_of_ok h hok
    rw [hset] at hb
    have haccepts := (hp.accepts_iff h key value).mpr hadmits
    obtain ⟨ihok, ihvisible⟩ := ih hb.wf (hp.becomes hb)
    rw [hb.setup] at ihok ihvisible
    rw [Holdings.refuses, Holdings.taken, if_pos haccepts, ihok, ihvisible, hb.keyspace, haccepts]
    exact ⟨Iff.rfl, rfl⟩
  | case2 key value rest e write e' hset hcode =>
    have hcode' : (e.set key value none .always now).1.code ≠ .ok := by rw [hset]; exact hcode
    have hre := StorageEngine.set_reclaimed h hcode'
    rw [hset] at hre
    have haccepts : ¬ l.accepts e.setup key value = true := fun ha => by
      obtain ⟨e'', hset', -⟩ :=
        StorageEngine.set_of_admits h none (.always _) ((hp.accepts_iff h key value).mp ha)
      rw [hset'] at hcode'
      exact hcode' rfl
    rw [Holdings.refuses, Holdings.taken, if_neg haccepts]
    refine ⟨⟨fun hok => absurd hok hcode, fun hnot => ?_⟩, hre.reclaims.visible_eq le_rfl⟩
    simp [haccepts] at hnot
  | case3 pairs e hpairs =>
    rcases pairs with _ | ⟨key, _ | ⟨value, rest⟩⟩
    · exact ⟨by simp [Holdings.refuses], rfl⟩
    · exact ⟨by simp [Holdings.refuses], rfl⟩
    · exact absurd rfl (hpairs key value rest)

end Commands

/-! ## Error replies -/

/-- What a command hands to `Aof::append` is written without a failure. -/
def AppendSucceeds (env : Env) (now : TimePoint) (ctx : CommandContext) (args : List Bytes)
    (w : World FileName) : Prop :=
  ∀ aof, ctx.aof = some aof → ∀ record ∈ appended env now ctx args,
    Spec (aof.append env.config.persistence record) w (fun r _ => r.1.isOk = true) fun _ => True

/-- An error reply means that nothing happened: the visible keys, values and deadlines are as they
were, no record was appended, and the log is as it was (a rewrite that fails may have put a new one
in its place). -/
def ErrorChangesNothing (env : Env) (order : IterationOrder) (now : TimePoint) (ctx : CommandContext)
    (args : List Bytes) (w : World FileName) : Prop :=
  Spec (CommandRegistry.execute env order now ctx args) w
    (fun r w' => r.1.isError = true →
      r.2.storage.keyspace.visible now = ctx.storage.keyspace.visible now ∧
      appended env now ctx args = [] ∧
      (CommandName.ofArgs args ≠ some .bgrewriteaof → w'.fs.read .aof = w.fs.read .aof))
    fun _ => True

/-- No `MSET` that is refused at a later pair: if it is refused, what it has stored by then is what
the keys showed before. -/
def NoPartialMset (now : TimePoint) (e : StorageEngine) (args : List Bytes) : Prop :=
  CommandName.ofArgs args = some .mset → args.tail.length % 2 = 0 →
    e.holdings.refuses e.setup args.tail = true →
    ∀ key value, (e.holdings.taken e.setup args.tail).reverse.lookup key = some value →
      e.keyspace.visible now key = some ⟨value, none⟩

/-- The `MSET` that is refused. -/
theorem mset_visible_iff {e : StorageEngine} {now : TimePoint} (hwf : e.WF) {head : Bytes}
    {tail : List Bytes}
    (hname : CommandName.ofArgs (head :: tail) = some .mset) :
    ((Commands.mset e now (head :: tail)).result.isError = true →
      (Commands.mset e now (head :: tail)).storage.keyspace.visible now
        = e.keyspace.visible now) ↔ NoPartialMset now e (head :: tail) := by
  obtain ⟨hok, hvisible⟩ := Commands.setPairs_spec hwf (StorageEngine.pays_holdings hwf) now tail
  simp only [Commands.mset, NoPartialMset, hname, List.length_cons, List.tail_cons, List.drop_one,
    true_imp_iff]
  by_cases hlen : tail.length + 1 < 3 ∨ (tail.length + 1) % 2 = 0
  · simp only [if_pos hlen, implies_true, true_iff]
    intro heven hrefuses
    -- the one even number of words that is too small
    obtain rfl : tail = [] := List.eq_nil_of_length_eq_zero (by omega)
    cases hrefuses
  · have heven : tail.length % 2 = 0 := by omega
    simp only [if_neg hlen, heven, true_imp_iff, ← Keyspace.visible_storeAll_iff, ← hvisible]
    by_cases hcode : (Commands.setPairs now tail e).1 = .ok
    · simp [hcode, hok.mp hcode]
    · have hrefuses := mt hok.mpr hcode
      simp [hcode, hrefuses]

namespace LogOpen

variable {env : Env} {ctx : CommandContext} {w : World FileName} {log : Bytes} {now : TimePoint}
  {args : List Bytes} {order : IterationOrder}

/-- The commands on data, where the append succeeds. -/
theorem errorChangesNothing_effect_iff (h : LogOpen env ctx w.fs log) (hwf : ctx.storage.WF)
    (happend : AppendSucceeds env now ctx args w) {name : CommandName} {eff : Effect}
    (hname : CommandName.ofArgs args = some name)
    (heff : Commands.effect name env.config ctx now args = some eff) :
    ErrorChangesNothing env order now ctx args w ↔
      (eff.result.isError = true →
        eff.storage.keyspace.visible now = ctx.storage.keyspace.visible now) := by
  have happ : appended env now ctx args = eff.record.toList := by simp [appended, hname, heff]
  rw [ErrorChangesNothing, execute_of_effect hname heff, happ]
  cases hrec : eff.record with
  | none =>
    simp only [CommandRegistry.persist, hrec]
    rw [spec_pure]
    simp
  | some record =>
    -- a write that is logged has succeeded
    have hresult : eff.result.isError = false := by
      rcases Commands.effect_cases hwf heff with ⟨hnone, -⟩ | hlogs | ⟨-, -, hnone⟩
      · rw [hrec] at hnone
        cases hnone
      · cases hlogs <;> rfl
      · rw [hrec] at hnone
        cases hnone
    obtain ⟨aof, haof, hatt⟩ := h.aof
    refine iff_of_true ?_ fun herr => by rw [hresult] at herr; cases herr
    simp only [CommandRegistry.persist, hrec, haof, h.replay, hatt.enabled h.enabled, Bool.not_true,
      Bool.or_false, Bool.false_eq_true, if_false]
    rw [spec_bind]
    refine (happend aof haof record (by simp [happ, hrec])).mono (fun r w' hr => ?_) fun _ hc => hc
    simp only [hr, Bool.not_true, Bool.false_eq_true, if_false]
    refine spec_pure.mpr fun herr => ?_
    rw [hresult] at herr
    cases herr

end LogOpen

/-- **An error reply means that nothing happened**, unless it is that of an `MSET` that was refused
at a later pair. -/
theorem error_changes_nothing_iff {env : Env} {ctx : CommandContext} {w : World FileName} {log : Bytes}
    {now : TimePoint} {args : List Bytes} {order : IterationOrder} (hopen : LogOpen env ctx w.fs log)
    (hwf : ctx.storage.WF) (happend : AppendSucceeds env now ctx args w) :
    ErrorChangesNothing env order now ctx args w ↔ NoPartialMset now ctx.storage args := by
  obtain ⟨aof, -, hatt⟩ := hopen.aof
  cases args with
  | nil =>
    refine iff_of_true (spec_pure.mpr fun _ => ⟨rfl, rfl, fun _ => rfl⟩) fun hname => ?_
    cases hname
  | cons head tail =>
    cases hname : CommandName.find head with
    | none =>
      have hargs : CommandName.ofArgs (head :: tail) = none := hname
      refine iff_of_true ?_ fun hmset => ?_
      · simp only [ErrorChangesNothing, CommandRegistry.execute, hname]
        exact spec_pure.mpr fun _ => ⟨rfl, by simp [appended, hargs], fun _ => rfl⟩
      · rw [hargs] at hmset
        cases hmset
    | some name =>
      have hargs : CommandName.ofArgs (head :: tail) = some name := hname
      cases heff : Commands.effect name env.config ctx now (head :: tail) with
      | none =>
        refine iff_of_true ?_ fun hmset => ?_
        · rw [ErrorChangesNothing, execute_of_special hargs heff]
          refine (hopen.spec_special hwf order heff).mono (fun r w' hr _ => ?_) fun _ _ => trivial
          obtain ⟨hre, hlog⟩ := hr
          refine ⟨hre.reclaims.visible_eq le_rfl, by simp [appended, hargs, heff], fun hne => ?_⟩
          rw [hlog fun hn => hne (hn ▸ hargs), hatt.contents]
        · rw [hargs, Option.some.injEq] at hmset
          subst hmset
          cases heff
      | some eff =>
        rw [hopen.errorChangesNothing_effect_iff hwf happend hargs heff]
        by_cases hmset : name = .mset
        · subst hmset
          cases heff
          exact mset_visible_iff hwf hargs
        · -- any other command without a record drops at most expired entries
          refine iff_of_true (fun herr => ?_) fun hn => ?_
          · rcases Commands.effect_cases hwf heff with ⟨-, hre⟩ | hlogs | ⟨hn, -, -⟩
            · exact hre.reclaims.visible_eq le_rfl
            · cases hlogs <;> cases herr
            · exact absurd hn hmset
          · rw [hargs, Option.some.injEq] at hn
            exact absurd hn hmset

/-- A server that takes values of one byte. -/
def narrowEnv : Env := .plain { storage := { maxMemoryBytes := 0 }, protocol := { maxValueSize := 1 } }

/-- A server with one key, and its log. -/
def heldContext : CommandContext :=
  { openedContext narrowEnv with
    storage := ((freshStorage narrowEnv).set (ascii "a") (ascii "1") none .always 0).2
    aof := some { fd := some 0, currentSize := 27 } }

def heldFiles : FileSystem FileName :=
  openedFiles.append 0 (Resp.encodeCommand (["SET", "a", "1"].map ascii))

set_option maxRecDepth 100000 in
/-- The second pair of an `MSET` is refused, and the first one stores what was there. -/
theorem mset_refused_behind_same_value :
    let args := ["MSET", "a", "1", "b", "22"].map ascii
    heldContext.storage.holdings.refuses heldContext.storage.setup args.tail = true ∧
      ErrorChangesNothing narrowEnv .listed 0 heldContext args ⟨heldFiles, []⟩ := by
  intro args
  obtain ⟨hrefuses, happ, hset, htaken, hvisible⟩ :
      heldContext.storage.holdings.refuses heldContext.storage.setup args.tail = true ∧
      appended narrowEnv 0 heldContext args = [] ∧
      ((freshStorage narrowEnv).set (ascii "a") (ascii "1") none .always 0).1.code = .ok ∧
      heldContext.storage.holdings.taken heldContext.storage.setup args.tail
        = [(ascii "a", ascii "1")] ∧
      heldContext.storage.keyspace.visible 0 (ascii "a") = some ⟨ascii "1", none⟩ := by
    decide +kernel
  have hwf : heldContext.storage.WF :=
    (StorageEngine.set_of_ok (StorageEngine.wf_new _) hset).2.2.wf
  have hopen : LogOpen narrowEnv heldContext heldFiles
      (Resp.encodeCommand (["SET", "a", "1"].map ascii)) :=
    ⟨⟨_, rfl, ⟨0, rfl, rfl⟩, by decide +kernel, by decide +kernel⟩, rfl, by decide, rfl, rfl⟩
  refine ⟨hrefuses, (error_changes_nothing_iff hopen hwf ?_).mpr ?_⟩
  · intro aof _ record hrecord
    rw [happ] at hrecord
    cases hrecord
  · intro _ _ _ key value hlookup
    rw [htaken, List.reverse_singleton, List.lookup_cons] at hlookup
    cases hkey : key == ascii "a" with
    | false => simp [hkey] at hlookup
    | true =>
      obtain rfl := eq_of_beq hkey
      obtain rfl : ascii "1" = value := by simpa using hlookup
      exact hvisible

set_option maxRecDepth 100000 in
/-- The second pair of an `MSET` is refused: the reply is an error, the first pair is stored, and
the log is empty. -/
theorem mset_refused_too_late :
    let args := ["MSET", "a", "1", "b", "22"].map ascii
    ∃ result ctx' w, CommandRegistry.execute narrowEnv .listed 0 (openedContext narrowEnv) args
        ⟨openedFiles, []⟩ = .ok (result, ctx') w ∧
      result = Commands.err (ascii "value exceeds configured maximum size") ∧
      (openedContext narrowEnv).storage.keyspace.visible 0 (ascii "a") = none ∧
      ctx'.storage.keyspace.visible 0 (ascii "a") = some ⟨ascii "1", none⟩ ∧
      w.fs.read .aof = some [] := by
  intro args
  let eff := Commands.mset (openedContext narrowEnv).storage 0 args
  obtain ⟨hname, hrecord⟩ : CommandName.ofArgs args = some .mset ∧ eff.record = none := by
    decide +kernel
  refine ⟨eff.result, { openedContext narrowEnv with storage := eff.storage }, ⟨openedFiles, []⟩, ?_, ?_⟩
  · rw [execute_of_effect hname rfl]
    simp only [CommandRegistry.persist, eff, hrecord]
    rfl
  · decide +kernel

end VeloxDb
