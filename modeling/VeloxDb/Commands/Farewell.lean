import VeloxDb.Commands.Registry

/-!
# The command that closes its connection

Of all commands only `SHUTDOWN` sets `close_after_write`, when it is allowed, and it replies `+OK`.
So a connection is never condemned by a command without a reply that is still to be written.
-/

namespace VeloxDb

open FileProgram

/-- A result that closes the connection is the reply to `SHUTDOWN`. -/
def Farewell (result : CommandResult) : Prop :=
  result.closeAfterWrite = true → result.response = Resp.simple (ascii "OK")

/-- A reply that leaves the connection open is no farewell. -/
theorem farewell_of_open {result : CommandResult} (h : result.closeAfterWrite = false) :
    Farewell result := by
  intro hclose
  rw [h] at hclose
  cases hclose

namespace Commands

variable {ctx : CommandContext} {now : TimePoint} {args : List Bytes}

/-- No command on data closes the connection. -/
theorem effect_stays_open {name : CommandName} {config : Config} {fx : Effect}
    (h : effect name config ctx now args = some fx) : fx.result.closeAfterWrite = false := by
  cases name <;> simp only [effect, Option.some.injEq, reduceCtorEq] at h <;> subst h
  case ping => rw [ping.eq_def]; split <;> rfl
  case echo => rw [echo.eq_def]; split <;> rfl
  case get => rw [get.eq_def]; split <;> rfl
  case set =>
    rw [set.eq_def]
    split
    · split
      · rfl
      · simp only
        split_ifs <;> rfl
    · rfl
  case del => rw [del.eq_def]; split <;> rfl
  case exist => rw [existsCmd.eq_def]; split <;> rfl
  case mget => rw [mget.eq_def]; split <;> rfl
  case mset =>
    rw [mset]
    split_ifs
    · rfl
    · simp only
      split_ifs <;> rfl
  case incr | decr =>
    rw [incrDecr.eq_def]
    split
    · simp only
      split_ifs <;> rfl
    · rfl
  case append =>
    rw [append.eq_def]
    split
    · simp only
      split_ifs <;> rfl
    · rfl
  case strlen => rw [strlenCmd.eq_def]; split <;> rfl
  case expire | pexpire =>
    rw [expireImpl.eq_def]
    split
    · split <;> rfl
    · rfl
  case pexpireat =>
    rw [pexpireat.eq_def]
    split
    · split <;> rfl
    · rfl
  case ttl | pttl =>
    rw [ttlImpl.eq_def]
    split
    · split <;> rfl
    · rfl
  case persist => rw [persistCmd.eq_def]; split <;> rfl
  case dbsize => rw [dbsize.eq_def]; split <;> rfl
  case flushdb => rw [flushdb.eq_def]; split <;> rfl
  case info => rw [info]; split_ifs <;> rfl
  case bgsave => simp only [bgsave]; split_ifs <;> rfl
  case command => rw [commandCmd.eq_def]; split <;> rfl

/-- `CONFIG` leaves the connection open. -/
theorem configCmd_stays_open (config : Config) : (configCmd config ctx args).1.closeAfterWrite = false := by
  rw [configCmd.eq_def]
  split
  · simp only
    split_ifs
    · split <;> rfl
    · split
      · split_ifs
        · rfl
        · split <;> rfl
        · rfl
      · rfl
    · rfl
  · rfl

end Commands

namespace CommandRegistry

/-- Every way the program can end leaves such a result. -/
abbrev Leaves (p : FileProgram FileName (CommandResult × CommandContext)) : Prop :=
  ∀ w, Spec p w (fun r _ => Farewell r.1) fun _ => True

/-- A command that ends at once and leaves the connection open. -/
theorem leaves_of_open {result : CommandResult} {ctx : CommandContext}
    (h : result.closeAfterWrite = false) : Leaves (pure (result, ctx)) := fun _ => farewell_of_open h

/-- What is done to the files before does not matter. -/
theorem leaves_bind {α : Type} {f : α → FileProgram FileName (CommandResult × CommandContext)}
    (p : FileProgram FileName α) (hf : ∀ a, Leaves (f a)) : Leaves (p >>= f) :=
  fun w => spec_bind.mpr ((spec_any p w).mono (fun a w _ => hf a w) fun _ _ => trivial)

variable {ctx : CommandContext} {now : TimePoint} {args : List Bytes} {env : Env} {order : IterationOrder}

/-- A command that changes data leaves the connection open, recorded or not. -/
theorem leaves_persist {config : Config} {fx : Effect} (h : fx.result.closeAfterWrite = false) :
    Leaves (persist config fx ctx) := by
  rw [persist]
  split
  · split_ifs
    · exact leaves_of_open h
    · refine leaves_bind _ fun r => ?_
      simp only
      split_ifs
      · exact leaves_of_open rfl
      · exact leaves_of_open h
  · exact leaves_of_open h

/-- Of the commands on files only `SHUTDOWN` closes, and its reply says so. -/
theorem leaves_special (name : CommandName) :
    Leaves (Commands.special name env order now ctx args) := by
  rw [Commands.special.eq_def]
  split
  · rw [Commands.save]
    split_ifs
    · exact leaves_of_open rfl
    split
    · exact leaves_of_open rfl
    · refine leaves_bind _ fun r => ?_
      simp only
      split_ifs <;> exact leaves_of_open rfl
  · rw [Commands.bgrewriteaof]
    split_ifs
    · exact leaves_of_open rfl
    split
    · exact leaves_of_open rfl
    · refine leaves_bind _ fun r => ?_
      simp only
      split_ifs <;> exact leaves_of_open rfl
  · rw [Commands.shutdown]
    split_ifs
    · exact leaves_of_open rfl
    · exact leaves_of_open rfl
    split
    · exact fun _ _ => rfl
    · exact leaves_bind _ fun r _ _ => rfl
  · exact leaves_of_open (Commands.configCmd_stays_open env.config)

/-- **Only `SHUTDOWN` closes its connection**, and it replies. -/
theorem leaves_execute (env : Env) (order : IterationOrder) (now : TimePoint) (ctx : CommandContext)
    (args : List Bytes) : Leaves (execute env order now ctx args) := by
  rw [execute.eq_def]
  split
  · exact leaves_of_open rfl
  split
  · exact leaves_of_open rfl
  split
  · next hfx => exact leaves_persist (Commands.effect_stays_open hfx)
  · exact leaves_special _

end CommandRegistry

end VeloxDb
