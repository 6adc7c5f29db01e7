import VeloxDb.Persistence.Messages
import VeloxDb.Protocol.Replies
import VeloxDb.Recovery.Deadlines
import VeloxDb.Server

/-!
# Every reply is one value, but for an echoed name

Every command replies with one of the encoders of `resp.cpp`. What it takes from a client goes into
bulk strings, which are framed by their length, with two exceptions: an error about the number of
arguments quotes the command's own name, which is a registered one, and the error about an unknown
command quotes whatever the client sent. So a reply is exactly one RESP value unless it quotes an
unknown name that contains a CRLF.
-/

namespace VeloxDb

open Decimal Util Resp FileProgram Keyed Commands

/-! ## Sizes

Counts are `int64_t` in a reply. They are in range because the store and the request are in memory
at the same time, and that has less than 2⁶³ bytes. -/

/-- The bytes of the store and of the request. -/
def heldBytes (storage : StorageEngine) (args : List Bytes) : ℕ :=
  weight entryWeight storage.entries + (encodeCommand args).length

/-- A count of bytes is a number of 64 bits. -/
theorem inI64_natCast {n : ℕ} (h : n ≤ maxSize) : InI64 n := by
  simp only [maxSize] at h
  simp only [InI64, int64Min, int64Max]
  omega

/-- There are no more entries than bytes they are charged for. -/
theorem length_le_weight (l : List (Σ _ : Bytes, Entry)) : l.length ≤ weight entryWeight l := by
  induction l with
  | nil => rfl
  | cons p l ih =>
    have hpos := entryMemory_pos p.1 p.2.value
    simp only [List.length_cons, weight_cons, entryWeight]
    omega

section Counts

variable {e : StorageEngine} {args : List Bytes} {now : TimePoint}

/-- A stored value is no longer than the memory of all entries. -/
theorem length_value_le (h : e.WF) {k : Bytes} {x : Entry} (hk : e.find k = some x) :
    x.value.length ≤ weight entryWeight e.entries := by
  rw [← h.dlookup_entries] at hk
  have hsplit := weight_kerase (w := entryWeight) hk
  simp only [entryWeight, entryMemory] at hsplit
  omega

/-- What a lookup finds is in the store. -/
theorem length_findLive_le (h : e.WF) (k : Bytes) (now : TimePoint) :
    (((e.findLive k now).1.map Entry.value).getD []).length ≤ weight entryWeight e.entries := by
  rcases StorageEngine.findLive_cases h k now with ⟨e', hf, -, -⟩ | ⟨x, hf, hk, -⟩
  · rw [hf]
    exact Nat.zero_le _
  · rw [hf]
    exact length_value_le h hk

/-- A loop that counts at most one for every element. -/
theorem foldl_count_le {α σ : Type} {f : ℕ × σ → α → ℕ × σ} (hf : ∀ s a, (f s a).1 ≤ s.1 + 1)
    (l : List α) (s : ℕ × σ) : (l.foldl f s).1 ≤ s.1 + l.length := by
  induction l generalizing s with
  | nil => exact le_rfl
  | cons a l ih =>
    have hone := hf s a
    refine (ih (f s a)).trans ?_
    rw [List.length_cons]
    omega

/-- `DEL` deletes no more keys than it was given. -/
theorem delAll_le (e : StorageEngine) (keys : List Bytes) (now : TimePoint) :
    (e.delAll keys now).1 ≤ keys.length := by
  have hcount := foldl_count_le (f := fun (s : ℕ × StorageEngine) key =>
    (s.1 + (s.2.del key now).1, (s.2.del key now).2)) (fun s key => ?_) keys (0, e)
  · simpa [StorageEngine.delAll] using hcount
  · have hone : (s.2.del key now).1 ≤ 1 := by
      rw [StorageEngine.del]
      split
      · exact Nat.zero_le _
      · exact le_rfl
    simp only
    omega

/-- `EXISTS` counts no more keys than it was given. -/
theorem existsCount_le (e : StorageEngine) (keys : List Bytes) (now : TimePoint) :
    (e.existsCount keys now).1 ≤ keys.length := by
  have hcount := foldl_count_le (f := fun (s : ℕ × StorageEngine) key =>
    (if (s.2.get key now).1.isSome then s.1 + 1 else s.1, (s.2.get key now).2))
    (fun s key => ?_) keys (0, e)
  · simpa [StorageEngine.existsCount] using hcount
  · simp only
    split_ifs <;> omega

/-- `DBSIZE` counts no more keys than there are bytes in memory. -/
theorem dbsize_le (h : e.WF) (now : TimePoint) : (e.dbsize now).1 ≤ weight entryWeight e.entries := by
  obtain ⟨e', hscan, -⟩ := StorageEngine.scan_spec h now
  rw [StorageEngine.dbsize, hscan]
  exact (List.length_filter_le _ _).trans (length_le_weight _)

/-- A number that was incremented without overflow. -/
theorem inI64_incrBy (h : e.WF) {key : Bytes} {delta : ℤ}
    (hok : (e.incrBy key delta now).1.code = .ok) : InI64 (e.incrBy key delta now).1.integer := by
  by_cases hn : ∃ n, StorageEngine.nextInteger delta (e.keyspace.visible now key) = some n ∧
      e.Admits key (printInt n)
  · obtain ⟨n, hn, ha⟩ := hn
    obtain ⟨e', hincr, -⟩ := StorageEngine.incrBy_of_admits h hn ha
    rw [hincr]
    exact StorageEngine.inI64_nextInteger hn
  · push Not at hn
    exact absurd hok (StorageEngine.incrBy_of_refused h hn).1

/-- `APPEND` replies with a length, at most what was in memory and what it was given. -/
theorem length_append_le (h : e.WF) {key suffix : Bytes}
    (hok : (e.append key suffix now).1.code = .ok) :
    ∃ n : ℕ, (e.append key suffix now).1.integer = n ∧
      n ≤ weight entryWeight e.entries + suffix.length := by
  by_cases ha : e.Admits key (StorageEngine.appended suffix (e.keyspace.visible now key))
  · obtain ⟨e', happend, -⟩ := StorageEngine.append_of_admits h rfl ha
    refine ⟨_, by rw [happend], ?_⟩
    rw [← StorageEngine.appended_eq, ← StorageEngine.value_findLive h, List.length_append]
    exact Nat.add_le_add_right (length_findLive_le h key now) _
  · exact absurd hok (StorageEngine.append_of_refused h ha).1

/-- `STRLEN` replies with no more than there is in memory. -/
theorem strlen_le (h : e.WF) (key : Bytes) (now : TimePoint) :
    (e.strlen key now).1 ≤ weight entryWeight e.entries := by
  have hlen := length_findLive_le h key now
  rw [StorageEngine.value_findLive h] at hlen
  rw [(StorageEngine.strlen_spec h key now).1]
  cases hv : e.keyspace.visible now key with
  | none => exact Nat.zero_le _
  | some x => simpa [hv] using hlen

/-- A time to live that is left is a number of 64 bits. -/
theorem ttl_le {key : Bytes} {ms : ℤ} (h : (e.ttl key now).1 = .hasExpiry ms) :
    0 ≤ ms ∧ ms ≤ int64Max := by
  have hquot : ∀ d : ℤ, max 0 (millisBetween d now) ≤ int64Max := by
    intro d
    obtain ⟨-, hmax⟩ := inI64_wrap64 (d - now)
    have hdiv := tdiv_nanosPerMilli (wrap64 (d - now))
    rw [millisBetween]
    simp only [int64Max, nanosPerMilli] at *
    omega
  rw [StorageEngine.ttl] at h
  split at h
  · cases h
  · split at h
    · cases h
    · cases h
      exact ⟨le_max_left _ _, hquot _⟩

end Counts

/-! ## Names that are echoed -/

/-- Case folding makes no line break. -/
theorem oneLine_toLowerAscii {s : Bytes} (h : OneLine s) : OneLine (toLowerAscii s) := by
  intro hmem
  obtain ⟨b, hb, hb10⟩ := List.mem_map.mp hmem
  rw [toLower] at hb10
  split_ifs at hb10 with hupper
  · -- a letter is not folded to a line feed
    simp only [Bool.and_eq_true, decide_eq_true_eq] at hupper
    have hnat : (b.toNat + 32) % 256 = 10 := congrArg UInt8.toNat hb10
    omega
  · exact h (hb10 ▸ hb)

/-- A registered name has no line feed. -/
theorem oneLine_of_find {name : Bytes} {c : CommandName} (h : CommandName.find name = some c) :
    OneLine name := by
  intro hmem
  have htext : c.text = toUpperAscii name := by
    simpa using List.find?_some h
  have hupper : (10 : UInt8) ∈ toUpperAscii name :=
    List.mem_map.mpr ⟨10, hmem, by decide⟩
  rw [← htext] at hupper
  revert hupper
  cases c <;> decide

/-- An error whose text is on one line is one value. -/
theorem oneValue_err {text : Bytes} (h : OneLine text) : OneValue (err text).response :=
  oneValue_error_iff.mpr (crlfIndex_eq_none h)

/-- The name that the error about the number of arguments quotes is a registered one. -/
theorem oneValue_wrongArgs {args : List Bytes} (h : OneLine (args.headD [])) :
    OneValue (wrongArgs args).response :=
  oneValue_err (((by decide : OneLine (ascii "wrong number of arguments for '")).append
    (oneLine_toLowerAscii h)).append (by decide))

/-- The texts of refused writes are on one line. -/
theorem oneLine_storageWriteError (code : WriteCode) : OneLine (storageWriteError code) := by
  cases code <;> decide

/-- `OK` is one value. -/
theorem oneValue_ok : OneValue ok.response := oneValue_simple (by decide)

/-- The null bulk string is one value. -/
theorem oneValue_nullBulk : OneValue nullBulk :=
  oneValue_of_alone fun _ _ => parseAt_nullBulk kMaxDepth (List.append_nil _).symm

/-- A bulk string is one value, whatever its bytes are. -/
theorem oneValue_bulk_of_le {text : Bytes} (h : (bulk text).length ≤ maxSize) :
    OneValue (bulk text) := by
  have hlen := length_bulkStringFragment text
  rw [bulk] at h
  exact oneValue_bulk (by omega)

/-- The integers that stand for yes and no are values. -/
theorem oneValue_bool (b : Bool) : OneValue (Commands.integer (if b then 1 else 0)).response := by
  cases b <;> exact oneValue_integer (by decide)

/-- A count that fits in memory is one value. -/
theorem oneValue_count {n : ℕ} (h : n ≤ maxSize) : OneValue (Commands.integer n).response :=
  oneValue_integer (inI64_natCast h)

/-! ## The commands -/

/-- What the replies of a command may rely on: a registered name, and sizes that fit. -/
structure Served (storage : StorageEngine) (args : List Bytes) : Prop where
  wf : storage.WF
  held : heldBytes storage args ≤ maxSize
  name : OneLine (args.headD [])

/-- A reply that is not too long for a string is one value. -/
def Framed (result : CommandResult) : Prop :=
  result.response.length ≤ maxSize → OneValue result.response

/-- An error is framed if its text is on one line. -/
theorem framed_err {text : Bytes} (h : OneLine text) : Framed (err text) := fun _ => oneValue_err h

namespace Served

variable {e : StorageEngine} {args : List Bytes} {now : TimePoint}

/-- The complaint about the arguments quotes the name of a known command. -/
theorem framed_wrongArgs (h : Served e args) : Framed (wrongArgs args) :=
  fun _ => oneValue_wrongArgs h.name

/-- There are no more arguments than bytes. -/
theorem length_le (h : Served e args) : args.length ≤ maxSize := by
  have hheld := h.held
  have hlen := length_le_length_encodeCommand args
  rw [heldBytes] at hheld
  omega

/-- What is in memory and one argument fit together. -/
theorem weight_add_le (h : Served e args) (arg : Bytes) (harg : arg ∈ args) :
    weight entryWeight e.entries + arg.length ≤ maxSize := by
  have hheld := h.held
  have hlen := length_le_of_mem_encodeCommand harg
  rw [heldBytes] at hheld
  omega

/-- What is in memory fits. -/
theorem weight_le (h : Served e args) : weight entryWeight e.entries ≤ maxSize := by
  have hheld := h.held
  rw [heldBytes] at hheld
  omega

/-- `PING` echoes its argument as a bulk string. -/
theorem ping (h : Served e args) : Framed (ping e args).result := by
  rw [Commands.ping.eq_def]
  split
  · exact fun _ => oneValue_simple (by decide)
  · exact oneValue_bulk_of_le
  · exact h.framed_wrongArgs

/-- `ECHO` echoes its argument as a bulk string. -/
theorem echo (h : Served e args) : Framed (echo e args).result := by
  rw [Commands.echo.eq_def]
  split
  · exact oneValue_bulk_of_le
  · exact h.framed_wrongArgs

/-- `GET` replies with the value as a bulk string. -/
theorem get (h : Served e args) : Framed (get e now args).result := by
  rw [Commands.get.eq_def]
  split
  · next key =>
    cases hvalue : (e.get key now).1 with
    | none => exact fun _ => by simpa [hvalue] using oneValue_nullBulk
    | some value => simpa [Framed, hvalue] using oneValue_bulk_of_le
  · exact h.framed_wrongArgs

/-- The errors of the option loop have fixed texts. -/
theorem oneLine_parseSetOptions {rest : List Bytes} {options : SetOptions} {message : Bytes}
    (h : parseSetOptions rest options = .error message) : OneLine message := by
  have hexpiry : ∀ {options : SetOptions} {option arg message : Bytes},
      setExpiry options option arg = .error message → OneLine message := by
    intro options option arg message h
    rw [setExpiry] at h
    split at h
    · cases h
      decide
    · split_ifs at h
      cases h
      decide
  fun_induction parseSetOptions rest options with
  | case1 => cases h
  | case2 | case4 | case6 | case7 | case10 =>
    cases h
    decide
  | case3 _ _ _ _ _ _ ih => exact ih h
  | case5 _ _ _ _ _ _ _ ih => exact ih h
  | case8 =>
    cases h
    exact hexpiry (by assumption)
  | case9 _ _ _ _ _ _ _ _ _ _ _ ih => exact ih h

/-- `SET` replies with `OK`, a null bulk string or an error. -/
theorem set (h : Served e args) : Framed (set e now args).result := by
  rw [Commands.set.eq_def]
  split
  · split
    · next message hmessage => exact framed_err (oneLine_parseSetOptions hmessage)
    · simp only
      split_ifs
      · exact fun _ => oneValue_nullBulk
      · exact framed_err (oneLine_storageWriteError _)
      · exact fun _ => oneValue_ok
  · exact h.framed_wrongArgs

/-- `DEL` replies with a count. -/
theorem del (h : Served e args) : Framed (del e now args).result := by
  rw [Commands.del.eq_def]
  split
  · next name key keys =>
    have hlen := h.length_le
    have hcount := delAll_le e (key :: keys) now
    rw [List.length_cons] at hlen
    exact fun _ => oneValue_count (by omega)
  · exact h.framed_wrongArgs

/-- `EXISTS` replies with a count. -/
theorem existsCmd (h : Served e args) : Framed (existsCmd e now args).result := by
  rw [Commands.existsCmd.eq_def]
  split
  · next name key keys =>
    have hlen := h.length_le
    have hcount := existsCount_le e (key :: keys) now
    rw [List.length_cons] at hlen
    exact fun _ => oneValue_count (by omega)
  · exact h.framed_wrongArgs

/-- `MGET` replies with an array of bulk strings. -/
theorem mget (h : Served e args) : Framed (mget e now args).result := by
  rw [Commands.mget.eq_def]
  split
  · exact oneValue_arrayOfBulk
  · exact h.framed_wrongArgs

/-- `MSET` replies with `OK` or an error. -/
theorem mset (h : Served e args) : Framed (mset e now args).result := by
  rw [Commands.mset]
  split_ifs
  · exact h.framed_wrongArgs
  · simp only
    split_ifs
    · exact framed_err (oneLine_storageWriteError _)
    · exact fun _ => oneValue_ok

/-- `INCR` and `DECR` reply with the sum or an error. -/
theorem incrDecr (h : Served e args) (delta : ℤ) : Framed (incrDecr delta e now args).result := by
  rw [Commands.incrDecr.eq_def]
  split
  · simp only
    split_ifs with hcode
    · exact framed_err (oneLine_storageWriteError _)
    · exact fun _ => oneValue_integer (inI64_incrBy h.wf (not_not.mp hcode))
  · exact h.framed_wrongArgs

/-- `APPEND` replies with a length or an error. -/
theorem append (h : Served e args) : Framed (append e now args).result := by
  rw [Commands.append.eq_def]
  split
  · next name key suffix =>
    simp only
    split_ifs with hcode
    · exact framed_err (oneLine_storageWriteError _)
    · obtain ⟨n, hn, hle⟩ := length_append_le h.wf (not_not.mp hcode)
      have hsum := h.weight_add_le suffix (by simp)
      intro _
      rw [hn]
      exact oneValue_count (by omega)
  · exact h.framed_wrongArgs

/-- `STRLEN` replies with a length. -/
theorem strlenCmd (h : Served e args) : Framed (strlenCmd e now args).result := by
  rw [Commands.strlenCmd.eq_def]
  split
  · exact fun _ => oneValue_count ((strlen_le h.wf _ now).trans h.weight_le)
  · exact h.framed_wrongArgs

/-- `EXPIRE` and `PEXPIRE` reply with yes, no or an error. -/
theorem expireImpl (h : Served e args) (multiplier : ℤ) {commandName : Bytes}
    (hname : OneLine commandName) :
    Framed (expireImpl multiplier commandName e now args).result := by
  rw [Commands.expireImpl.eq_def]
  split
  · split
    · exact framed_err ((by decide : OneLine (ascii "invalid expire time in ")).append hname)
    · exact fun _ => oneValue_bool _
  · exact h.framed_wrongArgs

/-- `PEXPIREAT` replies with yes, no or an error. -/
theorem pexpireat (h : Served e args) : Framed (pexpireat e now args).result := by
  rw [Commands.pexpireat.eq_def]
  split
  · split
    · exact framed_err (by decide)
    · exact fun _ => oneValue_bool _
  · exact h.framed_wrongArgs

/-- `TTL` and `PTTL` reply with a number. -/
theorem ttlImpl (h : Served e args) (millis : Bool) : Framed (ttlImpl millis e now args).result := by
  rw [Commands.ttlImpl.eq_def]
  split
  · next name key =>
    split
    · exact fun _ => oneValue_integer (by decide)
    · exact fun _ => oneValue_integer (by decide)
    · next ms e' hms =>
      obtain ⟨hpos, hmax⟩ := ttl_le (congrArg Prod.fst hms)
      refine fun _ => oneValue_integer ?_
      rw [Int.tdiv_eq_ediv_of_nonneg (by omega)]
      simp only [InI64, int64Min, int64Max] at hmax ⊢
      split_ifs <;> omega
  · exact h.framed_wrongArgs

/-- `PERSIST` replies with yes or no. -/
theorem persistCmd (h : Served e args) : Framed (persistCmd e now args).result := by
  rw [Commands.persistCmd.eq_def]
  split
  · exact fun _ => oneValue_bool _
  · exact h.framed_wrongArgs

/-- `DBSIZE` replies with a count. -/
theorem dbsize (h : Served e args) : Framed (dbsize e now args).result := by
  rw [Commands.dbsize.eq_def]
  split
  · exact fun _ => oneValue_count ((dbsize_le h.wf now).trans h.weight_le)
  · exact h.framed_wrongArgs

/-- `FLUSHDB` replies with `OK`. -/
theorem flushdb (h : Served e args) : Framed (flushdb e args).result := by
  rw [Commands.flushdb.eq_def]
  split
  · exact fun _ => oneValue_ok
  · exact h.framed_wrongArgs

/-- `BGSAVE` replies with an error. -/
theorem bgsave (h : Served e args) : Framed (bgsave args) := by
  rw [Commands.bgsave]
  split_ifs
  · exact h.framed_wrongArgs
  · exact framed_err (by decide)

/-- `COMMAND` replies with an array of names. -/
theorem commandCmd (h : Served e args) : Framed (commandCmd e args).result := by
  rw [Commands.commandCmd.eq_def]
  split
  · exact oneValue_arrayOfBulk
  · exact h.framed_wrongArgs

/-- `INFO` replies with one bulk string, line breaks included. -/
theorem info {ctx : CommandContext} (h : Served ctx.storage args) (config : Config) :
    Framed (info config ctx now args).result := by
  rw [Commands.info]
  by_cases hargs : args.length > 2
  · rw [if_pos hargs]
    exact h.framed_wrongArgs
  · rw [if_neg hargs]
    exact oneValue_bulk_of_le

/-- The reply of every command that touches no file is framed. -/
theorem effect {ctx : CommandContext} (h : Served ctx.storage args) {name : CommandName}
    {config : Config} {fx : Effect} (heffect : Commands.effect name config ctx now args = some fx) :
    Framed fx.result := by
  cases name <;> cases heffect
  case ping => exact h.ping
  case echo => exact h.echo
  case get => exact h.get
  case set => exact h.set
  case del => exact h.del
  case exist => exact h.existsCmd
  case mget => exact h.mget
  case mset => exact h.mset
  case incr => exact h.incrDecr 1
  case decr => exact h.incrDecr (-1)
  case append => exact h.append
  case strlen => exact h.strlenCmd
  case expire => exact h.expireImpl 1000 (by decide)
  case pexpire => exact h.expireImpl 1 (by decide)
  case pexpireat => exact h.pexpireat
  case ttl => exact h.ttlImpl false
  case pttl => exact h.ttlImpl true
  case persist => exact h.persistCmd
  case dbsize => exact h.dbsize
  case flushdb => exact h.flushdb
  case info => exact h.info config
  case bgsave => exact h.bgsave
  case command => exact h.commandCmd

/-- `CONFIG` replies with an array, `OK` or an error. -/
theorem configCmd {ctx : CommandContext} (h : Served ctx.storage args) (config : Config) :
    Framed (configCmd config ctx args).1 := by
  rw [Commands.configCmd.eq_def]
  split
  · simp only
    split_ifs
    · split
      · exact oneValue_arrayOfBulk
      · exact h.framed_wrongArgs
    · split
      · split_ifs
        · exact fun _ => oneValue_ok
        · split
          · exact framed_err (by decide)
          · exact fun _ => oneValue_ok
        · exact framed_err (by decide)
      · exact h.framed_wrongArgs
    · exact framed_err (by decide)
  · exact h.framed_wrongArgs

/-! ## The commands on files -/

variable {env : Env} {ctx : CommandContext} {order : IterationOrder}

/-- `SAVE` replies with `OK` or with the message of the store. -/
theorem reports_save (hpaths : LogPathOneLine env) (h : Served ctx.storage args) :
    Reports OneLine (fun r => Framed r.1) (Commands.save env order now ctx args) := by
  rw [Commands.save]
  split_ifs
  · exact reports_pure h.framed_wrongArgs
  split
  · exact reports_pure (framed_err (by decide))
  · refine (SnapshotStore.reports_save hpaths _ _ _ _ _).bind fun r hr => ?_
    obtain ⟨status, storage⟩ := r
    simp only
    split_ifs
    · exact reports_pure (framed_err hr)
    · exact reports_pure fun _ => oneValue_ok

/-- `BGREWRITEAOF` replies with a text or with the message of the log. -/
theorem reports_bgrewriteaof (hpaths : LogPathOneLine env) (h : Served ctx.storage args) :
    Reports OneLine (fun r => Framed r.1) (Commands.bgrewriteaof env order now ctx args) := by
  rw [Commands.bgrewriteaof]
  split_ifs
  · exact reports_pure h.framed_wrongArgs
  split
  · exact reports_pure (framed_err (by decide))
  · refine (Aof.reports_rewrite hpaths _ _ _ _).bind fun r hr => ?_
    obtain ⟨status, aof, storage⟩ := r
    simp only
    split_ifs
    · exact reports_pure
        (framed_err ((by decide : OneLine (ascii "AOF rewrite failed: ")).append hr))
    · exact reports_pure fun _ => oneValue_ok

/-- `SHUTDOWN` replies with `OK`, or that it is disabled. -/
theorem reports_shutdown (hpaths : LogPathOneLine env) (h : Served ctx.storage args) :
    Reports OneLine (fun r => Framed r.1) (Commands.shutdown env ctx args) := by
  have hdone : Framed ⟨simple (ascii "OK"), true⟩ := fun _ => oneValue_simple (by decide)
  rw [Commands.shutdown]
  split_ifs
  · exact reports_pure h.framed_wrongArgs
  · exact reports_pure (framed_err (by decide))
  split
  · exact reports_pure hdone
  · exact (Aof.reports_sync hpaths _).discard.bind fun _ _ => reports_pure hdone

/-- The commands on files have framed replies, if the reasons of the kernel are on one line. -/
theorem reports_special (hpaths : LogPathOneLine env) (h : Served ctx.storage args)
    (name : CommandName) :
    Reports OneLine (fun r => Framed r.1) (Commands.special name env order now ctx args) := by
  rw [Commands.special.eq_def]
  split
  · exact h.reports_save hpaths
  · exact h.reports_bgrewriteaof hpaths
  · exact h.reports_shutdown hpaths
  · exact reports_pure (h.configCmd env.config)

/-- A command whose record cannot be appended replies with the message of the log. -/
theorem reports_persist {fx : Effect} (hfx : Framed fx.result) (config : Config)
    (ctx : CommandContext) :
    Reports OneLine (fun r => Framed r.1) (CommandRegistry.persist config fx ctx) := by
  rw [CommandRegistry.persist]
  split
  · split_ifs
    · exact reports_pure hfx
    · refine (Aof.reports_append _ _ _).bind fun r hr => ?_
      obtain ⟨status, aof⟩ := r
      simp only
      split_ifs
      · exact reports_pure
          (framed_err ((by decide : OneLine (ascii "persistence append failed: ")).append hr))
      · exact reports_pure hfx
  · exact reports_pure hfx

end Served

/-! ## All replies -/

/-- The name of an unknown command, which the reply quotes, has no CRLF. -/
def EchoSafe (args : List Bytes) : Prop :=
  ∀ name, args.head? = some name → CommandName.find name = none → crlfIndex name = none

/-- A reply that the registry gives to these arguments in some state, with the sizes a machine has
and the kernel's reasons on one line. -/
def Answered (env : Env) (args : List Bytes) (reply : Bytes) : Prop :=
  ∃ (order : IterationOrder) (now : TimePoint) (ctx : CommandContext) (w : World FileName)
    (result : CommandResult) (ctx' : CommandContext) (w' : World FileName),
    ctx.storage.WF ∧ heldBytes ctx.storage args ≤ maxSize ∧ Reasons OneLine w ∧
      CommandRegistry.execute env order now ctx args w = .ok (result, ctx') w' ∧
      reply = result.response ∧ reply.length ≤ maxSize

/-- The reply to an unknown command is one value exactly if its name has no CRLF. -/
theorem oneValue_unknown_iff (name : Bytes) :
    OneValue (Resp.error (ascii "unknown command '" ++ name ++ ascii "'")) ↔
      crlfIndex name = none := by
  rw [oneValue_error_iff, crlfIndex_append_right _ (by decide),
    crlfIndex_append_left (by decide), Option.map_eq_none_iff]

/-- **A reply is one value** exactly if it quotes no CRLF. -/
theorem Answered.oneValue_iff {env : Env} (hpaths : LogPathOneLine env) {args : List Bytes}
    {reply : Bytes} (h : Answered env args reply) : OneValue reply ↔ EchoSafe args := by
  obtain ⟨order, now, ctx, w, result, ctx', w', hwf, hheld, hreasons, hrun, rfl, hlen⟩ := h
  cases args with
  | nil =>
    cases hrun
    refine ⟨fun _ name hname => (by cases hname), fun _ => ?_⟩
    exact oneValue_error_iff.mpr (by decide)
  | cons name rest =>
    cases hfind : CommandName.find name with
    | none =>
      rw [CommandRegistry.execute, hfind] at hrun
      cases hrun
      rw [oneValue_unknown_iff]
      refine ⟨fun hnone name' hname _ => ?_, fun h => h name rfl hfind⟩
      cases hname
      exact hnone
    | some found =>
      -- a registered command has no name to echo, and its reply is framed
      have hserved : Served ctx.storage (name :: rest) := ⟨hwf, hheld, oneLine_of_find hfind⟩
      have hreports : Reports OneLine (fun r => Framed r.1)
          (CommandRegistry.execute env order now ctx (name :: rest)) := by
        rw [CommandRegistry.execute, hfind]
        simp only
        split
        · next fx hfx => exact Served.reports_persist (hserved.effect hfx) _ _
        · exact hserved.reports_special hpaths found
      refine iff_of_true (((hreports w hreasons).of_ok hrun).2 hlen) ?_
      intro name' hname hnone
      cases hname
      rw [hfind] at hnone
      cases hnone

/-- **Replies.** A reply is exactly one RESP value if and only if it does not quote an unknown name
with a CRLF in it. Where no request has such a name, the values that a client reads off a pipelined
connection are the replies to its commands, in their order. -/
theorem replies_are_values {env : Env} (hpaths : LogPathOneLine env) :
    (∀ args reply, Answered env args reply → (OneValue reply ↔ EchoSafe args)) ∧
    ∀ requests replies, List.Forall₂ (Answered env) requests replies →
      (∀ args ∈ requests, EchoSafe args) →
      ∀ o rest, (∀ reply ∈ replies, Roomy o reply.length) →
        readValues replies.length ⟨o, replies.flatten ++ rest⟩ = replies := by
  refine ⟨fun args reply h => h.oneValue_iff hpaths, fun requests replies h hsafe o rest hroom => ?_⟩
  refine readValues_replies replies rest fun reply hreply => ⟨?_, hroom reply hreply⟩
  clear hroom
  induction h with
  | nil => cases hreply
  | cons hanswered _ ih =>
    rcases List.mem_cons.mp hreply with rfl | hreply
    · exact (hanswered.oneValue_iff hpaths).mpr (hsafe _ (by simp))
    · exact ih (fun args hargs => hsafe args (by simp [hargs])) hreply

/-- A server with the default configuration, before its first command. -/
def freshContext : CommandContext :=
  { storage := { setup := ⟨({} : Config).storage, ({} : Config).protocol, List.length⟩ } }

/-- What a fresh server replies, when no file is touched. -/
theorem answered_fresh {args : List Bytes} {reply : Bytes}
    (hargs : heldBytes freshContext.storage args ≤ maxSize)
    (hrun : CommandRegistry.execute (.plain {}) .listed 0 freshContext args ⟨.empty, []⟩
      = .ok (⟨reply, false⟩, freshContext) ⟨.empty, []⟩) (hlen : reply.length ≤ maxSize) :
    Answered (.plain {}) args reply :=
  ⟨.listed, 0, freshContext, ⟨.empty, []⟩, ⟨reply, false⟩, freshContext, ⟨.empty, []⟩,
    StorageEngine.wf_new _, hargs, fun _ hr => absurd hr List.not_mem_nil, hrun, rfl, hlen⟩

/-- An unknown name that is echoed, a value with a CRLF that is echoed, and an answer of its own: the
reader takes the three replies off its buffer one by one. -/
theorem pipelined_replies_are_values :
    let replies := [ascii "-ERR unknown command 'nope'\r\n", ascii "$4\r\na\r\nb\r\n", ascii "+PONG\r\n"]
    List.Forall₂ (Answered (.plain {})) [[ascii "nope"], [ascii "ECHO", ascii "a\r\nb"], [ascii "PING"]]
        replies ∧
      OneValue (ascii "-ERR unknown command 'nope'\r\n") ∧
      readValues 3 ⟨{}, replies.flatten⟩ = replies := by
  intro replies
  have hpaths : LogPathOneLine (.plain {}) := ⟨by decide +kernel, by decide +kernel⟩
  have hunknown : Answered (.plain {}) [ascii "nope"] (ascii "-ERR unknown command 'nope'\r\n") :=
    answered_fresh (by decide +kernel) rfl (by decide +kernel)
  have hanswered : List.Forall₂ (Answered (.plain {}))
      [[ascii "nope"], [ascii "ECHO", ascii "a\r\nb"], [ascii "PING"]] replies :=
    .cons hunknown (.cons (answered_fresh (by decide +kernel) rfl (by decide +kernel))
      (.cons (answered_fresh (by decide +kernel) rfl (by decide +kernel)) .nil))
  have hsafe : ∀ args ∈ [[ascii "nope"], [ascii "ECHO", ascii "a\r\nb"], [ascii "PING"]],
      ∀ name ∈ args.head?, CommandName.find name = none → crlfIndex name = none := by
    decide +kernel
  obtain ⟨hone, hpipeline⟩ := replies_are_values hpaths
  refine ⟨hanswered, (hone _ _ hunknown).mpr (hsafe _ (.head _)), ?_⟩
  have hroom : ∀ reply ∈ replies, Roomy {} reply.length := by
    intro reply hreply
    have hlengths : ∀ reply ∈ replies, reply.length ≤ 30 := by decide +kernel
    have hlength := hlengths reply hreply
    exact ⟨hlength.trans (by decide), hlength.trans (by decide), hlength.trans (by decide)⟩
  have hread := hpipeline _ _ hanswered hsafe {} [] hroom
  rw [List.append_nil] at hread
  exact hread

/-- An unknown name with a CRLF in it is echoed, and a client reads two values. -/
theorem unknown_reply_is_two_values :
    Answered (.plain {}) [ascii "x\r\n+OK"] (ascii "-ERR unknown command 'x\r\n+OK'\r\n") ∧
      ¬ OneValue (ascii "-ERR unknown command 'x\r\n+OK'\r\n") ∧
      readValues 2 ⟨{}, ascii "-ERR unknown command 'x\r\n+OK'\r\n"⟩
        = [ascii "-ERR unknown command 'x\r\n", ascii "+OK'\r\n"] := by
  refine ⟨?_, ?_, by decide +kernel⟩
  · exact answered_fresh (by decide +kernel) rfl (by decide +kernel)
  · intro h
    exact absurd ((oneValue_unknown_iff (ascii "x\r\n+OK")).mp h) (by decide +kernel)

end VeloxDb
