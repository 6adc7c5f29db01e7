import VeloxDb.Server
import VeloxDb.Net.Worker

/-!
# How a connection ends

Two things can go wrong at the end of a connection. After `close_after_write` has been set the
worker still reads from the socket, and what it reads may be executed; and the end of the stream
closes the connection at once, even if replies are waiting in the write buffer.

Both are about steps, so each is excluded by a condition on the steps of a run: a condemned
connection reads nothing more, unless its parser is stuck at the error that condemned it; and what
makes the worker give a connection up at once, the end of the stream above all, comes only when the
write buffer is empty.
-/

namespace VeloxDb.Net

open Resp

/-! ## Parsers that are stuck -/

/-- The parser is at an error that it does not get past. -/
def Stuck (p : Parser) : Prop := ∃ message, p.nextValue = (.error message, p)

/-- What has arrived is within the request limit. -/
def Bounded (p : Parser) : Prop := p.buffer.length ≤ p.options.maxRequestBytes

/-- Taking a request off keeps the buffer within its bound. -/
theorem bounded_nextCommand {p p' : Parser} {r : CommandParseResult} (h : Bounded p)
    (hnext : p.nextCommand = (r, p')) : Bounded p' := by
  obtain ⟨n, rfl⟩ := Parser.nextCommand_discards hnext
  simp only [Bounded, Parser.discard, List.length_drop] at h ⊢
  omega

/-- Bytes that are accepted are behind the others, within the bound. -/
theorem append_ok {p p' : Parser} {chunk : Bytes} {status : Status}
    (h : p.append chunk = (status, p')) (hok : status.isOk = true) :
    p' = p.extend chunk ∧ Bounded p' := by
  rw [Parser.append] at h
  split_ifs at h with hlimit
  · cases h
    cases hok
  · cases h
    refine ⟨rfl, ?_⟩
    rw [not_or] at hlimit
    simp only [Bounded, List.length_append]
    omega

/-- A parser that is stuck does not come loose by what arrives behind the error. -/
theorem nextCommand_of_stuck {p : Parser} (h : Stuck p) (hb : Bounded p) (chunk : Bytes) :
    ∃ message, (p.extend chunk).nextCommand = (.error message, p.extend chunk) := by
  obtain ⟨message, hvalue⟩ := h
  refine ⟨message, ?_⟩
  rw [Parser.nextCommand, Parser.nextValue_extend hb chunk (by simp) hvalue]

namespace Session

variable {σ : Type} {exec : σ → List Bytes → CommandResult × σ} {config : ProtocolConfig}
variable {s s' : Session σ}

/-! ## The control flow changes nothing but the phase -/

/-- A hangup changes the phase only. -/
theorem checkHangup_eq (hangup : Bool) (s : Session σ) :
    ∃ phase, s.checkHangup hangup = { s with phase } := by
  rw [checkHangup]
  split_ifs
  · exact ⟨_, rfl⟩
  · exact ⟨_, rfl⟩

/-- The writing loop goes on, or it ends with an empty buffer. -/
theorem writeToTest_eq {r : Session σ ⊕ (Bool × Session σ)} (h : s.writeToTest = r) :
    r = .inl s ∨ (s.writeBuffer = [] ∧ r = .inr (!s.closeAfterWrite, s)) := by
  rw [writeToTest] at h
  split_ifs at h with hempty
  · exact .inr ⟨hempty, h.symm⟩
  · exact .inl h.symm

/-- The state a round leaves, wherever it goes on. -/
def outcome : Session σ ⊕ (Bool × Session σ) → Session σ
  | .inl s => s
  | .inr (_, s) => s

/-- What follows the writing loop changes the phase only. -/
theorem afterWrite_eq (hangup : Bool) (r : Session σ ⊕ (Bool × Session σ)) :
    ∃ phase, afterWrite hangup r = { outcome r with phase } := by
  match r with
  | .inl s => exact ⟨_, rfl⟩
  | .inr (false, s) => exact ⟨_, rfl⟩
  | .inr (true, s) => exact checkHangup_eq hangup s

/-- The test for room changes the phase only. -/
theorem checkWritable_eq (writable hangup : Bool) (s : Session σ) :
    ∃ phase, s.checkWritable writable hangup = { s with phase } := by
  rw [checkWritable]
  split_ifs
  · obtain ⟨phase, hphase⟩ := afterWrite_eq hangup s.writeToTest
    refine ⟨phase, ?_⟩
    rcases writeToTest_eq (s := s) rfl with hr | ⟨-, hr⟩ <;> rw [hphase, hr] <;> rfl
  · exact checkHangup_eq hangup s

/-- What follows the reading loop changes the phase only. -/
theorem afterRead_eq (writable hangup : Bool) (r : Session σ ⊕ (Bool × Session σ)) :
    ∃ phase, afterRead writable hangup r = { outcome r with phase } := by
  match r with
  | .inl s => exact ⟨_, rfl⟩
  | .inr (false, s) => exact ⟨_, rfl⟩
  | .inr (true, s) => exact checkWritable_eq writable hangup s

/-! ## A rule for `drain_commands` -/

/-- **Invariant rule.** What holds before `drain_commands` and after every command behind which it
goes on holds at each of its four ends: there is no whole command, there is a protocol error, the
command closes the connection, or its reply is too much for the output buffer. -/
theorem drainCommands_induction {I Q : Session σ → Prop}
    (hwaits : ∀ s p, I s → s.parser.nextCommand = (.needMore, p) → Q { s with parser := p })
    (hrefuses : ∀ s message p, I s → s.parser.nextCommand = (.error message, p) →
      Q (({ s with parser := p } : Session σ).protocolError message))
    (hcloses : ∀ s c p, I s → s.parser.nextCommand = (.ok c, p) →
      (exec s.shared c.args).1.closeAfterWrite = true →
      Q (({ s with parser := p } : Session σ).execute exec c.args).2)
    (hoverflows : ∀ s c p, I s → s.parser.nextCommand = (.ok c, p) →
      Q { (({ s with parser := p } : Session σ).execute exec c.args).2 with
        writeBuffer := Resp.error (ascii "output buffer limit exceeded")
        closeAfterWrite := true
        refused := true })
    (hgoesOn : ∀ s c p, I s → s.parser.nextCommand = (.ok c, p) →
      (exec s.shared c.args).1.closeAfterWrite = false →
      (s.writeBuffer ++ (exec s.shared c.args).1.response).length ≤ config.maxOutputBufferBytes →
      I (({ s with parser := p } : Session σ).execute exec c.args).2)
    (h : I s) : Q (drainCommands exec config s).2 := by
  refine Loop.runUntil_induction (Q := fun r => Q r.2) (drainRound_lowers exec config) ?_ ?_ h
  · intro s s' h hround
    simp only [drainRound] at hround
    split at hround
    · cases hround
    · cases hround
    · next c p hnext =>
      split_ifs at hround with hclose hlimit
      cases hround
      exact hgoesOn s c p h hnext (Bool.eq_false_iff.mpr hclose) (Nat.le_of_not_lt hlimit)
  · rintro s ⟨b, s'⟩ h hround
    simp only [drainRound] at hround
    split at hround
    · next p hnext =>
      cases hround
      exact hwaits s p h hnext
    · next message p hnext =>
      cases hround
      exact hrefuses s message p h hnext
    · next c p hnext =>
      split_ifs at hround with hclose
      · cases hround
        exact hcloses s c p h hnext hclose
      · cases hround
        exact hoverflows s c p h hnext

/-! ## No command after the connection is condemned -/

/-- Every command was executed before `close_after_write` was set. -/
structure Disciplined (s : Session σ) : Prop where
  executed : ∀ x ∈ s.executed, x.2 = false
  bounded : Bounded s.parser

/-- It is about the requests and the parser. -/
theorem Disciplined.congr (h : Disciplined s) (hexecuted : s'.executed = s.executed)
    (hparser : s'.parser = s.parser) : Disciplined s' :=
  ⟨hexecuted ▸ h.executed, hparser ▸ h.bounded⟩

variable (exec) in
/-- A command that is executed on an open connection. -/
theorem Disciplined.execute (h : Disciplined s) (hopen : s.closeAfterWrite = false) {c : Command}
    {p : Parser} (hnext : s.parser.nextCommand = (.ok c, p)) :
    Disciplined (({ s with parser := p } : Session σ).execute exec c.args).2 := by
  refine ⟨fun x hx => ?_, bounded_nextCommand h.bounded hnext⟩
  rcases List.mem_append.mp hx with hx | hx
  · exact h.executed x hx
  · rw [List.mem_singleton.mp hx]
    exact hopen

/-- `drain_commands` stops at the command that condemns the connection. -/
theorem Disciplined.drainCommands (h : Disciplined s) (hopen : s.closeAfterWrite = false) :
    Disciplined (drainCommands exec config s).2 := by
  refine drainCommands_induction (I := fun s => Disciplined s ∧ s.closeAfterWrite = false)
    ?_ ?_ ?_ ?_ ?_ ⟨h, hopen⟩
  · rintro s p ⟨h, -⟩ hnext
    exact ⟨h.executed, bounded_nextCommand h.bounded hnext⟩
  · rintro s message p ⟨h, -⟩ hnext
    exact ⟨h.executed, bounded_nextCommand h.bounded hnext⟩
  · rintro s c p ⟨h, hopen⟩ hnext -
    exact h.execute exec hopen hnext
  · rintro s c p ⟨h, hopen⟩ hnext
    exact (h.execute exec hopen hnext).congr rfl rfl
  · rintro s c p ⟨h, hopen⟩ hnext hclose -
    refine ⟨h.execute exec hopen hnext, ?_⟩
    show (s.closeAfterWrite || (exec s.shared c.args).1.closeAfterWrite) = false
    rw [hopen, hclose]
    rfl

/-- A step does not read anything new on a condemned connection, unless the parser is stuck. -/
def ReadsNothingNew (s : Session σ) : Event σ → Prop
  | .read (.bytes chunk) => (∃ writable hangup, s.phase = .reading writable hangup) →
      s.closeAfterWrite = true → chunk = [] ∨ Stuck s.parser
  | _ => True

variable (exec config) in
/-- A round of the reading loop keeps it, if nothing is parsed behind a farewell. -/
theorem Disciplined.readFromRound (h : Disciplined s) {r : ReadResult}
    (hread : ∀ chunk, r = .bytes chunk → s.closeAfterWrite = true → chunk = [] ∨ Stuck s.parser) :
    Disciplined (outcome (readFromRound exec config r s)) := by
  rw [Session.readFromRound.eq_def]
  split
  · exact h
  · next chunk hne =>
    split
    next status parser happend =>
    split_ifs with hstatus
    · exact h.congr rfl rfl
    · have hok : status.isOk = true := by simpa using hstatus
      obtain ⟨rfl, hbounded⟩ := append_ok happend hok
      have happended : Disciplined { s with parser := s.parser.extend chunk } :=
        ⟨h.executed, hbounded⟩
      have hdrained : Disciplined
          (Session.drainCommands exec config { s with parser := s.parser.extend chunk }).2 := by
        by_cases hopen : s.closeAfterWrite = true
        · -- the parser is stuck, so nothing is executed
          have hstuck := (hread chunk rfl hopen).resolve_left (by simpa using hne)
          obtain ⟨message, hnext⟩ := nextCommand_of_stuck hstuck h.bounded chunk
          have hdrain : Session.drainCommands exec config { s with parser := s.parser.extend chunk }
              = (false, { s with parser := s.parser.extend chunk }.protocolError message) :=
            Loop.runUntil_of_inr _ (by simp only [drainRound, hnext])
          rw [hdrain]
          exact happended.congr rfl rfl
        · exact happended.drainCommands (Bool.eq_false_iff.mpr hopen)
      split <;> next hd => rw [hd] at hdrained; exact hdrained
  · exact h
  · exact h
  · exact h

/-- A round of the writing loop sends a part of the buffer. -/
theorem outcome_writeToRound (r : WriteResult) (s : Session σ) :
    ∃ writeBuffer sent, outcome (writeToRound r s) = { s with writeBuffer, sent } := by
  rw [writeToRound.eq_def]
  split
  · exact ⟨_, _, rfl⟩
  · rw [writeToTest]
    split_ifs
    · exact ⟨_, _, rfl⟩
    · exact ⟨_, _, rfl⟩
  all_goals exact ⟨_, _, rfl⟩

/-- The choice of a loop changes the phase only. -/
theorem dispatch_eq (s : Session σ) (mask : Mask) : ∃ phase, s.dispatch mask = { s with phase } := by
  rw [dispatch]
  split_ifs
  · exact ⟨_, rfl⟩
  · exact ⟨_, rfl⟩
  · exact checkWritable_eq _ _ s

/-- Every event keeps it. -/
theorem Disciplined.step (h : Disciplined s) {e : Event σ} (he : ReadsNothingNew s e) :
    Disciplined (step exec config s e) := by
  rw [Session.step.eq_def]
  split
  · next mask =>
    obtain ⟨phase, hphase⟩ := dispatch_eq s mask
    rw [hphase]
    split_ifs
    · exact h.congr rfl rfl
    · exact h
  · next r =>
    split
    · next writable hangup hreading =>
      obtain ⟨phase, hphase⟩ := afterRead_eq writable hangup (Session.readFromRound exec config r s)
      rw [hphase]
      refine (h.readFromRound exec config (r := r) ?_).congr rfl rfl
      rintro chunk rfl hclose
      exact he ⟨writable, hangup, hreading⟩ hclose
    · exact h
  · next r =>
    split
    · next hangup _ =>
      obtain ⟨phase, hphase⟩ := afterWrite_eq hangup (writeToRound r s)
      obtain ⟨writeBuffer, sent, hround⟩ := outcome_writeToRound r s
      rw [hphase, hround]
      exact h.congr rfl rfl
    · exact h
  · exact h.congr rfl rfl
  · split_ifs
    · exact h.congr rfl rfl
    · exact h

/-- It holds of a new connection. -/
theorem disciplined_fresh (shared : σ) : Disciplined (fresh config shared) where
  executed _ hx := absurd hx List.not_mem_nil
  bounded := Nat.zero_le _

/-- **No command after the connection is condemned**, in every run in which a condemned connection
reads nothing more, unless its parser is stuck at the error. -/
theorem no_command_when_condemned (shared : σ) (events : List (Event σ))
    (h : Machine.AllSteps (Session.step exec config) ReadsNothingNew (fresh config shared) events) :
    ∀ x ∈ (run exec config shared events).executed, x.2 = false :=
  (Machine.run_invariant (I := Disciplined) (fun _ _ hs he => hs.step he)
    (disciplined_fresh shared) h).executed

/-! ## No reply is lost at the end of the stream -/

/-- No `write` fails; one that takes nothing counts as failed, as in `write_to`. -/
def Writes : Event σ → Prop
  | .write r => r ≠ .failed ∧ r ≠ .wrote 0
  | _ => True

/-- What makes the worker give up the connection at once comes only when there is nothing left to
write: the end of the stream, a `read` that fails, an error in the mask, or a stop. -/
def ClosesDrained (s : Session σ) : Event σ → Prop
  | .ready mask => s.phase = .idle → mask.error = true → s.writeBuffer = []
  | .read r => (∃ writable hangup, s.phase = .reading writable hangup) →
      r = .bytes [] ∨ r = .failed → s.writeBuffer = []
  | .stop => s.phase = .idle → s.writeBuffer = []
  | _ => True

/-- What was written and what is waiting are the replies, as long as no limit has cut the stream
off. -/
def Accounted (s : Session σ) : Prop := s.refused = false → s.replies = s.sent ++ s.writeBuffer

/-- A closed connection has nothing left to write. -/
structure Delivering (s : Session σ) : Prop where
  accounted : Accounted s
  closed : s.phase = .closed → s.writeBuffer = []

variable (exec config) in
/-- Every reply of the requests that are drained is in the buffer or was sent. -/
theorem accounted_drainCommands (h : Accounted s) : Accounted (drainCommands exec config s).2 := by
  have hexecute : ∀ (s : Session σ) args, Accounted s → Accounted (s.execute exec args).2 := by
    intro s args h hrefused
    show s.replies ++ _ = s.sent ++ (s.writeBuffer ++ _)
    rw [h hrefused, List.append_assoc]
  refine drainCommands_induction (I := Accounted) ?_ ?_ ?_ ?_ ?_ h
  · exact fun s p h _ => h
  · exact fun s message p h _ hrefused => by cases hrefused
  · exact fun s c p h _ _ => hexecute { s with parser := p } c.args h
  · exact fun s c p h _ hrefused => by cases hrefused
  · exact fun s c p h _ _ _ => hexecute { s with parser := p } c.args h

variable (exec config) in
/-- `read_from` returns `false` only at the end of the stream, or when `read` fails. -/
theorem readFromRound_cases (h : Accounted s) (r : ReadResult) :
    Accounted (outcome (readFromRound exec config r s)) ∧
      (∀ s', readFromRound exec config r s = .inr (false, s') →
        (r = .bytes [] ∨ r = .failed) ∧ s' = s) := by
  rw [Session.readFromRound.eq_def]
  split
  · refine ⟨h, fun s' hr => ?_⟩
    cases hr
    exact ⟨.inl rfl, rfl⟩
  · next chunk hne =>
    split
    next status parser happend =>
    split_ifs
    · refine ⟨fun hrefused => (by cases hrefused), fun s' hr => (by cases hr)⟩
    · have hparser : Accounted { s with parser } := h
      have hdrained := accounted_drainCommands exec config hparser
      split
      · next hd =>
        rw [hd] at hdrained
        exact ⟨hdrained, fun s' hr => by cases hr⟩
      · next hd =>
        rw [hd] at hdrained
        exact ⟨hdrained, fun s' hr => by cases hr⟩
  · exact ⟨h, fun s' hr => by cases hr⟩
  · exact ⟨h, fun s' hr => by cases hr⟩
  · refine ⟨h, fun s' hr => ?_⟩
    cases hr
    exact ⟨.inr rfl, rfl⟩

/-- `write_to` returns `false` only with an empty buffer, or when `write` fails. -/
theorem writeToRound_cases (h : Accounted s) {r : WriteResult} (hr : r ≠ .failed ∧ r ≠ .wrote 0) :
    Accounted (outcome (writeToRound r s)) ∧
      ∀ s', writeToRound r s = .inr (false, s') → s'.writeBuffer = [] := by
  rw [writeToRound.eq_def]
  split
  · exact absurd rfl hr.2
  · next n _ =>
    have hsent : Accounted { s with
        writeBuffer := s.writeBuffer.drop n, sent := s.sent ++ s.writeBuffer.take n } := by
      intro hrefused
      simp only
      rw [List.append_assoc, List.take_append_drop]
      exact h hrefused
    rw [writeToTest]
    split_ifs with hempty
    · refine ⟨hsent, fun s' hs' => ?_⟩
      rw [Sum.inr.injEq, Prod.mk.injEq] at hs'
      rw [← hs'.2]
      exact hempty
    · exact ⟨hsent, fun s' hs' => by cases hs'⟩
  · exact ⟨h, fun s' hs' => by cases hs'⟩
  · exact ⟨h, fun s' hs' => by cases hs'⟩
  · exact absurd rfl hr.1

/-- A hangup keeps it. -/
theorem Delivering.checkHangup (h : Accounted s) (hangup : Bool) :
    Delivering (s.checkHangup hangup) := by
  rw [Session.checkHangup]
  split_ifs with hclose
  · simp only [Bool.and_eq_true, List.isEmpty_iff] at hclose
    exact ⟨h, fun _ => hclose.2⟩
  · exact ⟨h, fun hphase => by cases hphase⟩

/-- The end of the writing loop keeps it. -/
theorem Delivering.afterWrite {r : Session σ ⊕ (Bool × Session σ)} (h : Accounted (outcome r))
    (hfalse : ∀ s', r = .inr (false, s') → s'.writeBuffer = []) (hangup : Bool) :
    Delivering (afterWrite hangup r) := by
  match r with
  | .inl s => exact ⟨h, fun hphase => by cases hphase⟩
  | .inr (false, s) => exact ⟨h, fun _ => hfalse s rfl⟩
  | .inr (true, s) => exact .checkHangup h hangup

/-- The test for room keeps it. -/
theorem Delivering.checkWritable (h : Accounted s) (writable hangup : Bool) :
    Delivering (s.checkWritable writable hangup) := by
  rw [Session.checkWritable]
  split_ifs
  · rcases writeToTest_eq (s := s) rfl with hr | ⟨hempty, hr⟩
    · rw [hr]
      exact ⟨h, fun hphase => by cases hphase⟩
    · refine .afterWrite (by rw [hr]; exact h) (fun s' hs' => ?_) hangup
      rw [hr, Sum.inr.injEq, Prod.mk.injEq] at hs'
      rw [← hs'.2]
      exact hempty
  · exact .checkHangup h hangup

/-- What was promised is kept by every step in which `write` does not fail and nothing is given up
with replies waiting. -/
theorem Delivering.step (h : Delivering s) {e : Event σ} (he : Writes e) (hdrained : ClosesDrained s e) :
    Delivering (step exec config s e) := by
  rw [Session.step.eq_def]
  split
  · next mask =>
    split_ifs with hidle
    · rw [dispatch]
      split_ifs with herror
      · exact ⟨h.accounted, fun _ => hdrained hidle herror⟩
      · exact ⟨h.accounted, fun hphase => by cases hphase⟩
      · exact .checkWritable h.accounted _ _
    · exact h
  · next r =>
    split
    · next writable hangup hreading =>
      obtain ⟨haccounted, hfalse⟩ :=
        readFromRound_cases exec config h.accounted r
      match hround : readFromRound exec config r s, haccounted, hfalse with
      | .inl s', haccounted, _ => exact ⟨haccounted, fun hphase => by cases hphase⟩
      | .inr (true, s'), haccounted, _ => exact .checkWritable haccounted _ _
      | .inr (false, s'), _, hfalse =>
        obtain ⟨hr, rfl⟩ := hfalse s' rfl
        exact ⟨h.accounted, fun _ => hdrained ⟨writable, hangup, hreading⟩ hr⟩
    · exact h
  · next r =>
    split
    · next hangup _ =>
      obtain ⟨haccounted, hfalse⟩ := writeToRound_cases h.accounted he
      exact .afterWrite haccounted hfalse hangup
    · exact h
  · exact ⟨h.accounted, h.closed⟩
  · split_ifs with hidle
    · exact ⟨h.accounted, fun _ => hdrained hidle⟩
    · exact h

variable (exec config) in
/-- A connection that is given up with replies waiting is closed as it is. -/
theorem step_of_not_closesDrained {e : Event σ} (h : ¬ ClosesDrained s e) :
    step exec config s e = { s with phase := .closed } ∧ s.writeBuffer ≠ [] := by
  cases e with
  | ready mask =>
    simp only [ClosesDrained, Classical.not_imp] at h
    obtain ⟨hidle, herror, hne⟩ := h
    exact ⟨by rw [Session.step, if_pos hidle, dispatch, if_pos herror], hne⟩
  | read r =>
    simp only [ClosesDrained, Classical.not_imp] at h
    obtain ⟨⟨writable, hangup, hreading⟩, hr, hne⟩ := h
    refine ⟨?_, hne⟩
    rcases hr with rfl | rfl <;> simp only [Session.step, hreading, readFromRound, afterRead]
  | stop =>
    simp only [ClosesDrained, Classical.not_imp] at h
    exact ⟨by rw [Session.step, if_pos h.1], h.2⟩
  | write r => exact absurd trivial h
  | others shared => exact absurd trivial h

variable (exec config) in
/-- A closed connection stays as it is. -/
theorem step_of_closed (h : s.phase = .closed) (e : Event σ) :
    ∃ shared, step exec config s e = { s with shared } := by
  rw [Session.step.eq_def]
  split
  · exact ⟨s.shared, if_neg (by rw [h]; decide)⟩
  · split
    · next hreading => rw [h] at hreading; cases hreading
    · exact ⟨s.shared, rfl⟩
  · split
    · next hwriting => rw [h] at hwriting; cases hwriting
    · exact ⟨s.shared, rfl⟩
  · exact ⟨_, rfl⟩
  · exact ⟨s.shared, if_neg (by rw [h]; decide)⟩

variable (exec config) in
/-- A connection that is closed stays as it is. -/
theorem run_of_closed (h : s.phase = .closed) (events : List (Event σ)) :
    ∃ shared, Machine.run (step exec config) s events = { s with shared } := by
  induction events generalizing s with
  | nil => exact ⟨s.shared, rfl⟩
  | cons e events ih =>
    obtain ⟨shared, hstep⟩ := step_of_closed exec config h e
    rw [Machine.run_cons, hstep]
    exact ih h

/-- From any state that keeps account of its replies. -/
theorem Delivering.run_iff (h : Delivering s) {events : List (Event σ)}
    (hwrites : ∀ e ∈ events, Writes e)
    (hrefused : (Machine.run (Session.step exec config) s events).refused = false) :
    ((Machine.run (Session.step exec config) s events).phase = .closed →
        (Machine.run (Session.step exec config) s events).sent
          = (Machine.run (Session.step exec config) s events).replies) ↔
      Machine.AllSteps (Session.step exec config) ClosesDrained s events := by
  induction events generalizing s with
  | nil =>
    refine iff_of_true (fun hclosed => ?_) trivial
    have haccounted := h.accounted hrefused
    rw [h.closed hclosed, List.append_nil] at haccounted
    exact haccounted.symm
  | cons e events ih =>
    have he := hwrites e (by simp)
    by_cases hdrained : ClosesDrained s e
    · rw [Machine.run_cons] at hrefused ⊢
      rw [ih (h.step he hdrained) (fun e' he' => hwrites e' (by simp [he'])) hrefused]
      exact ⟨fun hrest => ⟨hdrained, hrest⟩, fun hall => hall.2⟩
    · -- the connection is closed with replies waiting, and stays so
      refine iff_of_false ?_ fun hall => hdrained hall.1
      obtain ⟨hstep, hne⟩ := step_of_not_closesDrained exec config hdrained
      obtain ⟨shared, hrun⟩ := run_of_closed exec config
        (s := { s with phase := .closed }) rfl events
      rw [Machine.run_cons, hstep, hrun] at hrefused ⊢
      intro hsent
      have haccounted := h.accounted hrefused
      rw [← hsent rfl] at haccounted
      exact hne (List.self_eq_append_right.mp haccounted)

/-- **Replies at the end of the stream.** In a run in which no `write` fails and no limit is exceeded,
a connection is only closed after all its replies have been written, if and only if the end of the
stream, a failed `read`, an error event and a stop of the worker never come while replies are waiting.
-/
theorem replies_delivered_iff (shared : σ) {events : List (Event σ)}
    (hwrites : ∀ e ∈ events, Writes e)
    (hlimits : (run exec config shared events).refused = false) :
    ((run exec config shared events).phase = .closed →
        (run exec config shared events).sent = (run exec config shared events).replies) ↔
      Machine.AllSteps (Session.step exec config) ClosesDrained (fresh config shared) events :=
  Delivering.run_iff ⟨fun _ => rfl, fun hphase => by cases hphase⟩ hwrites hlimits

end Session

/-! ## The registry as the executor -/

/-- What the connections share: the clock, the context and the files. -/
structure Shared where
  now : TimePoint
  ctx : CommandContext
  world : World FileName

/-- `registry_.execute`. A process that dies on the way replies nothing. -/
def registryExec (env : Env) (order : IterationOrder) (shared : Shared) (args : List Bytes) :
    CommandResult × Shared :=
  match CommandRegistry.execute env order shared.now shared.ctx args shared.world with
  | .ok (result, ctx) world => (result, { shared with ctx, world })
  | .error _ world => (⟨[], false⟩, { shared with world })

/-- A server in memory, before its first command. -/
def freshShared : Shared where
  now := 0
  ctx := { storage := { setup := ⟨{ shards := 1 }, {}, fun _ => 0⟩ } }
  world := ⟨.empty, []⟩

/-- The plain environment, with its registry, on a connection with the default limits. -/
def plainSession (events : List (Event Shared)) : Session Shared :=
  Session.run (registryExec (.plain {}) .listed) {} freshShared events

/-- A readable event, and one chunk before `read` would block. -/
def Event.chunk (text : String) : List (Event Shared) :=
  [.ready { readable := true }, .read (.bytes (ascii text)), .read .wouldBlock]

/-- A malformed length leaves the parser stuck, so what comes behind it is not executed. -/
theorem stuck_after_protocol_error :
    (plainSession (Event.chunk "PING\r\n" ++ Event.chunk "$x\r\n" ++ Event.chunk "PING\r\n")).executed
        = [([ascii "PING"], false)] ∧
      ∀ x ∈ (plainSession (Event.chunk "PING\r\n" ++ Event.chunk "$x\r\n" ++
        Event.chunk "PING\r\n")).executed, x.2 = false := by
  refine ⟨by decide +kernel, Session.no_command_when_condemned _ _ ?_⟩
  refine ⟨trivial, fun _ h => ?_, trivial, trivial, fun _ h => ?_, trivial, trivial, fun _ _ => ?_, trivial,
    trivial⟩
  · exact absurd h (by decide +kernel)
  · exact absurd h (by decide +kernel)
  · have hstuck : Stuck ⟨parserOptionsFromConfig {}, ascii "$x\r\n"⟩ :=
      ⟨ascii "invalid bulk string length", by rfl⟩
    exact .inr (cast (congrArg Stuck (by decide +kernel)) hstuck)

/-- A simple string is not a command: the parser consumes it and the connection is condemned. What
the client sends next is executed all the same. -/
theorem command_after_protocol_error :
    (plainSession (Event.chunk "+x\r\n")).closeAfterWrite = true ∧
      (plainSession (Event.chunk "+x\r\n" ++ Event.chunk "SET k v\r\n")).executed
        = [([ascii "SET", ascii "k", ascii "v"], true)] := by
  decide +kernel

/-- The replies have been written when the end of the stream is read. -/
def politeClient : List (Event Shared) :=
  Event.chunk "PING\r\n" ++
    [.ready { writable := true }, .write (.wrote 3), .write (.wrote 4),
      .ready { readable := true, hangup := true }, .read (.bytes [])]

theorem politeClient_delivered :
    (plainSession politeClient).phase = .closed ∧
      (plainSession politeClient).sent = (plainSession politeClient).replies := by
  have hwrites : ∀ e ∈ politeClient, Session.Writes e := by
    simp [politeClient, Event.chunk, Session.Writes]
  have hclosed : (plainSession politeClient).phase = .closed := by decide +kernel
  refine ⟨hclosed, (Session.replies_delivered_iff freshShared hwrites (by decide +kernel)).mpr ?_
    hclosed⟩
  have hmask : ∀ (s : Session Shared) (mask : Mask), mask.error = false →
      Session.ClosesDrained s (.ready mask) := fun s mask hmask _ herror => by simp [hmask] at herror
  refine ⟨hmask _ _ rfl, fun _ h => ?_, fun _ h => ?_, hmask _ _ rfl, trivial, trivial, hmask _ _ rfl,
    fun _ _ => ?_, trivial⟩
  · exact absurd h (by decide)
  · exact absurd h (by decide)
  · decide +kernel

/-- The command and the end of the stream arrive together, and the reply is never written. -/
def hastyClient : List (Event Shared) :=
  [.ready { readable := true, hangup := true }, .read (.bytes (ascii "PING\r\n")), .read (.bytes [])]

theorem hastyClient_loses_reply :
    (plainSession hastyClient).phase = .closed ∧ (plainSession hastyClient).refused = false ∧
      (plainSession hastyClient).replies = ascii "+PONG\r\n" ∧ (plainSession hastyClient).sent = [] ∧
      ∀ e ∈ hastyClient, Session.Writes e := by
  refine ⟨by decide +kernel, by decide +kernel, by decide +kernel, by decide +kernel, ?_⟩
  simp [hastyClient, Session.Writes]

end VeloxDb.Net
