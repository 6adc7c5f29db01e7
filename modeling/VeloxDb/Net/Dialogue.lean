import VeloxDb.Commands.Farewell
import VeloxDb.Net.Pool
import VeloxDb.Protocol.CommandText

/-!
# What a client is told

A client sends bytes, which arrive in chunks of any size, at any time, while the worker serves other
clients and other workers change the data. This file says what the client can rely on nevertheless.
The commands that are executed are those its bytes spell, each once and in their order, and none is
left in the buffer; so they depend on the bytes alone, and not on the chunks. What the client
receives is what the executor replies to these commands, one after the other, on data that only they
and the other clients have changed (`serve`). Input and output stay within their limits, and a
connection that is to be closed is always waiting for the socket to take its last reply.

All of it is about a connection that has not been refused: a protocol error or a limit ends the
dialogue.
-/

namespace VeloxDb.Net

open Resp Framing

namespace Session

variable {σ : Type}

section Hearing

variable (exec : σ → List Bytes → CommandResult × σ) (config : ProtocolConfig)

/-- What an answer to `read` adds to the parser's buffer. -/
def accepted (s : Session σ) : ReadResult → Bytes
  | .bytes chunk => if (s.parser.append chunk).1.isOk then chunk else []
  | _ => []

/-- What a step hears from the client. -/
def hears (s : Session σ) : Event σ → Bytes
  | .read r =>
    match s.phase with
    | .reading _ _ => s.accepted r
    | _ => []
  | _ => []

/-- All that a run hears from the client. -/
def heard (s : Session σ) : List (Event σ) → Bytes
  | [] => []
  | e :: events => s.hears e ++ heard (step exec config s e) events

end Hearing

/-! ## A rule for what the steps keep -/

variable {exec : σ → List Bytes → CommandResult × σ} {config : ProtocolConfig}
variable {s s' : Session σ} {bytes : Bytes} {P : Bytes → Session σ → Prop}

variable (exec config) in
/-- **Inversion.** A round of `read_from` leaves the session as it is, refuses the client, or takes
the chunk and executes what it can. -/
theorem outcome_readFromRound (s : Session σ) (r : ReadResult) :
    (s.accepted r = [] ∧ (outcome (readFromRound exec config r s) = s ∨
      ∃ message, outcome (readFromRound exec config r s) = s.protocolError message)) ∨
    (Bounded (s.parser.extend (s.accepted r)) ∧
      outcome (readFromRound exec config r s)
        = (drainCommands exec config { s with parser := s.parser.extend (s.accepted r) }).2) := by
  rw [readFromRound.eq_def]
  split
  · refine .inl ⟨?_, .inl rfl⟩
    rw [accepted]
    split_ifs <;> rfl
  · next chunk _ =>
    split
    next status parser happend =>
    split_ifs with hstatus
    · refine .inl ⟨?_, .inr ⟨_, rfl⟩⟩
      rw [accepted, happend, if_neg (by simpa using hstatus)]
    · have hok : status.isOk = true := by simpa using hstatus
      obtain ⟨rfl, hbounded⟩ := append_ok happend hok
      have haccepted : s.accepted (.bytes chunk) = chunk := by rw [accepted, happend, if_pos hok]
      rw [haccepted]
      refine .inr ⟨hbounded, ?_⟩
      split <;> next hd => rw [hd]; rfl
  · exact .inl ⟨rfl, .inl rfl⟩
  · exact .inl ⟨rfl, .inl rfl⟩
  · exact .inl ⟨rfl, .inl rfl⟩

/-- What a property of a session and of what it has heard needs to be kept by all steps: it does not
depend on the phase or on what is shared, and the parts of `read_from` and `write_to` keep it. -/
structure Kept (exec : σ → List Bytes → CommandResult × σ) (config : ProtocolConfig)
    (P : Bytes → Session σ → Prop) : Prop where
  congr : ∀ bytes s phase shared, P bytes s → P bytes { s with phase, shared }
  receive : ∀ bytes s chunk, Bounded (s.parser.extend chunk) → P bytes s →
    P (bytes ++ chunk) (drainCommands exec config { s with parser := s.parser.extend chunk }).2
  refuse : ∀ bytes s message, P bytes s → P bytes (s.protocolError message)
  write : ∀ bytes s n, P bytes s → P bytes { s with
    writeBuffer := s.writeBuffer.drop n, sent := s.sent ++ s.writeBuffer.take n }

namespace Kept

/-- A round of the reading loop keeps it. -/
theorem readFromRound (h : Kept exec config P) (hs : P bytes s) (r : ReadResult) :
    P (bytes ++ s.accepted r) (outcome (readFromRound exec config r s)) := by
  rcases outcome_readFromRound exec config s r with ⟨hnothing, hsame | ⟨message, hrefused⟩⟩ |
    ⟨hbounded, hdrained⟩
  · rw [hnothing, hsame, List.append_nil]
    exact hs
  · rw [hnothing, hrefused, List.append_nil]
    exact h.refuse bytes s message hs
  · rw [hdrained]
    exact h.receive bytes s _ hbounded hs

/-- A round of the writing loop keeps it. -/
theorem writeToRound (h : Kept exec config P) (hs : P bytes s) (r : WriteResult) :
    P bytes (outcome (writeToRound r s)) := by
  rw [Session.writeToRound.eq_def]
  split
  · exact hs
  · next n _ =>
    rw [writeToTest]
    split_ifs <;> exact h.write bytes s n hs
  · exact hs
  · exact hs
  · exact hs

/-- A step keeps the property, with what it hears added to what was heard. -/
theorem step (h : Kept exec config P) (hs : P bytes s) (e : Event σ) :
    P (bytes ++ s.hears e) (Session.step exec config s e) := by
  cases e with
  | ready mask =>
    obtain ⟨phase, hphase⟩ := dispatch_eq s mask
    show P (bytes ++ []) _
    rw [List.append_nil, Session.step, hphase]
    split_ifs
    · exact h.congr bytes s phase s.shared hs
    · exact hs
  | read r =>
    rw [hears, Session.step]
    cases s.phase with
    | reading writable hangup =>
      obtain ⟨phase, hphase⟩ := afterRead_eq writable hangup (Session.readFromRound exec config r s)
      simp only [hphase]
      exact h.congr _ _ phase _ (h.readFromRound hs r)
    | _ =>
      rw [List.append_nil]
      exact hs
  | write r =>
    show P (bytes ++ []) _
    rw [List.append_nil, Session.step]
    split
    · next hangup _ =>
      obtain ⟨phase, hphase⟩ := afterWrite_eq hangup (Session.writeToRound r s)
      rw [hphase]
      exact h.congr _ _ phase _ (h.writeToRound hs r)
    · exact hs
  | others shared =>
    show P (bytes ++ []) _
    rw [List.append_nil]
    exact h.congr bytes s s.phase shared hs
  | stop =>
    show P (bytes ++ []) _
    rw [List.append_nil, Session.step]
    split_ifs
    · exact h.congr bytes s .closed s.shared hs
    · exact hs

/-- A run keeps the property, with all that it hears added to what was heard. -/
theorem run_from (h : Kept exec config P) (hs : P bytes s) (events : List (Event σ)) :
    P (bytes ++ heard exec config s events) (Machine.run (Session.step exec config) s events) := by
  induction events generalizing s bytes with
  | nil =>
    rw [heard, List.append_nil]
    exact hs
  | cons e events ih =>
    rw [heard, ← List.append_assoc]
    exact ih (h.step hs e)

/-- What is kept by the steps of a session is kept by all connections of a worker. -/
theorem connections (h : Kept exec config P) (hfresh : ∀ shared, P [] (.fresh config shared))
    (shared : σ) (events : List (PoolEvent σ)) {fd : ℕ} {s : Session σ}
    (hs : (Pool.run exec config shared events).connections fd = some s) : ∃ bytes, P bytes s := by
  refine Pool.connections_run (P := fun s => ∃ bytes, P bytes s) (fun shared => ⟨[], hfresh shared⟩)
    ?_ shared events fd s hs
  rintro s shared e ⟨bytes, hs⟩
  exact ⟨_, h.step (h.congr bytes s s.phase shared hs) e⟩

end Kept

/-! ## The data -/

section Serving

variable (exec : σ → List Bytes → CommandResult × σ) (config : ProtocolConfig)

/-- What happens to the data, one after the other: a command of the client, or a change that others
make. All replies, and the data in the end. -/
def serve : σ → List (List Bytes ⊕ σ) → Bytes × σ
  | shared, [] => ([], shared)
  | shared, .inl args :: story =>
    ((exec shared args).1.response ++ (serve (exec shared args).2 story).1,
      (serve (exec shared args).2 story).2)
  | _, .inr shared :: story => serve shared story

/-- What a step does to the data: it is a change by others, or executes these commands. -/
def deeds (s : Session σ) : Event σ → List (List Bytes ⊕ σ)
  | .others shared => [.inr shared]
  | e => ((step exec config s e).executed.drop s.executed.length).map fun x => .inl x.1

/-- What a run does to the data. -/
def story (s : Session σ) : List (Event σ) → List (List Bytes ⊕ σ)
  | [] => []
  | e :: events => s.deeds exec config e ++ story (step exec config s e) events

/-- A story and what follows it. -/
theorem serve_append (shared : σ) (story more : List (List Bytes ⊕ σ)) :
    serve exec shared (story ++ more)
      = ((serve exec shared story).1 ++ (serve exec (serve exec shared story).2 more).1,
        (serve exec (serve exec shared story).2 more).2) := by
  induction story generalizing shared with
  | nil => rfl
  | cons x story ih =>
    cases x with
    | inl args => simp only [List.cons_append, serve, ih, List.append_assoc]
    | inr shared' => exact ih shared'

/-- From one state to another the session has done what the story says. -/
structure Serves (s : Session σ) (story : List (List Bytes ⊕ σ)) (s' : Session σ) : Prop where
  executed : s'.executed.map Prod.fst = s.executed.map Prod.fst ++ story.filterMap Sum.getLeft?
  replies : s'.replies = s.replies ++ (serve exec s.shared story).1
  shared : s'.shared = (serve exec s.shared story).2

end Serving

section

variable {s'' : Session σ} {told more : List (List Bytes ⊕ σ)}

/-- One story after the other. -/
theorem Serves.trans (h : Serves exec s told s') (h' : Serves exec s' more s'') :
    Serves exec s (told ++ more) s'' := by
  refine ⟨?_, ?_, ?_⟩
  · rw [h'.executed, h.executed, List.filterMap_append, List.append_assoc]
  · rw [h'.replies, h.replies, h.shared, serve_append, List.append_assoc]
  · rw [h'.shared, h.shared, serve_append]

/-- Nothing happens to the data. -/
theorem Serves.rest (hexecuted : s'.executed = s.executed) (hreplies : s'.replies = s.replies)
    (hshared : s'.shared = s.shared) : Serves exec s [] s' :=
  ⟨by simp [hexecuted], by simp [hreplies, serve], hshared⟩

/-- The commands that are executed in a part of a step are those that are added to the list. -/
def Extends (exec : σ → List Bytes → CommandResult × σ) (s s' : Session σ) : Prop :=
  ∃ added, s'.executed = s.executed ++ added ∧ Serves exec s (added.map fun x => .inl x.1) s'

theorem Extends.of_rest (hexecuted : s'.executed = s.executed) (hreplies : s'.replies = s.replies)
    (hshared : s'.shared = s.shared) : Extends exec s s' :=
  ⟨[], by rw [hexecuted, List.append_nil], .rest hexecuted hreplies hshared⟩

/-- One extension after the other. -/
theorem Extends.trans (h : Extends exec s s') (h' : Extends exec s' s'') : Extends exec s s'' := by
  obtain ⟨added, hadded, hserves⟩ := h
  obtain ⟨added', hadded', hserves'⟩ := h'
  refine ⟨added ++ added', by rw [hadded', hadded, List.append_assoc], ?_⟩
  rw [List.map_append]
  exact hserves.trans hserves'

/-- A request is answered behind the others. -/
theorem extends_execute (s : Session σ) (args : List Bytes) : Extends exec s (s.execute exec args).2 :=
  ⟨[(args, s.closeAfterWrite)], rfl, by simp [execute], by simp [execute, serve], rfl⟩

variable (exec config) in
/-- The requests in the buffer are answered behind the others. -/
theorem extends_drainCommands (s : Session σ) : Extends exec s (drainCommands exec config s).2 := by
  have hparser : ∀ (s' : Session σ) p, Extends exec s s' → Extends exec s { s' with parser := p } :=
    fun s' p h => h.trans (.of_rest rfl rfl rfl)
  refine drainCommands_induction (I := fun s' => Extends exec s s') ?_ ?_ ?_ ?_ ?_
    (.of_rest rfl rfl rfl)
  · exact fun s' p h _ => hparser s' p h
  · exact fun s' message p h _ => h.trans (.of_rest rfl rfl rfl)
  · exact fun s' c p h _ _ => (hparser s' p h).trans (extends_execute _ c.args)
  · exact fun s' c p h _ =>
      ((hparser s' p h).trans (extends_execute _ c.args)).trans (.of_rest rfl rfl rfl)
  · exact fun s' c p h _ _ _ => (hparser s' p h).trans (extends_execute _ c.args)

variable (exec config) in
/-- A step does to the data what `deeds` says. -/
theorem serves_step (s : Session σ) (e : Event σ) :
    Serves exec s (s.deeds exec config e) (step exec config s e) := by
  have hextends : (∀ shared, e ≠ .others shared) → Extends exec s (step exec config s e) := by
    intro hothers
    cases e with
    | ready mask =>
      obtain ⟨phase, hphase⟩ := dispatch_eq s mask
      rw [Session.step, hphase]
      split_ifs
      · exact .of_rest rfl rfl rfl
      · exact .of_rest rfl rfl rfl
    | read r =>
      rw [Session.step]
      split
      · next writable hangup _ =>
        have hround : Extends exec s (outcome (readFromRound exec config r s)) := by
          rcases outcome_readFromRound exec config s r with ⟨-, hsame | ⟨message, hrefused⟩⟩ |
            ⟨-, hdrained⟩
          · rw [hsame]
            exact .of_rest rfl rfl rfl
          · rw [hrefused]
            exact .of_rest rfl rfl rfl
          · rw [hdrained]
            have hparser : Extends exec s { s with parser := s.parser.extend (s.accepted r) } :=
              .of_rest rfl rfl rfl
            exact hparser.trans (extends_drainCommands exec config _)
        obtain ⟨phase, hphase⟩ := afterRead_eq writable hangup (readFromRound exec config r s)
        rw [hphase]
        exact hround.trans (.of_rest rfl rfl rfl)
      · exact .of_rest rfl rfl rfl
    | write r =>
      rw [Session.step]
      split
      · next hangup _ =>
        obtain ⟨phase, hphase⟩ := afterWrite_eq hangup (writeToRound r s)
        obtain ⟨writeBuffer, sent, hround⟩ := outcome_writeToRound r s
        rw [hphase, hround]
        exact .of_rest rfl rfl rfl
      · exact .of_rest rfl rfl rfl
    | others shared => exact absurd rfl (hothers shared)
    | stop =>
      rw [Session.step]
      split_ifs
      · exact .of_rest rfl rfl rfl
      · exact .of_rest rfl rfl rfl
  by_cases hothers : ∃ shared, e = .others shared
  · obtain ⟨shared, rfl⟩ := hothers
    exact ⟨by simp [deeds, Session.step], by simp [deeds, Session.step, serve], rfl⟩
  · have hnot : ∀ shared, e ≠ .others shared := fun shared he => hothers ⟨shared, he⟩
    obtain ⟨added, hadded, hserves⟩ := hextends hnot
    have hdeeds : s.deeds exec config e = added.map fun x => .inl x.1 := by
      rw [deeds.eq_def]
      split
      · exact absurd rfl (hnot _)
      · rw [hadded, List.drop_left]
    rw [hdeeds]
    exact hserves

variable (exec config) in
/-- A run does to the data what its story says. -/
theorem serves_run (s : Session σ) (events : List (Event σ)) :
    Serves exec s (story exec config s events) (Machine.run (step exec config) s events) := by
  induction events generalizing s with
  | nil => exact .rest rfl rfl rfl
  | cons e events ih => exact (serves_step exec config s e).trans (ih (step exec config s e))

end

/-! ## The dialogue -/

/-- What holds inside `drain_commands`. -/
structure Talking (exec : σ → List Bytes → CommandResult × σ) (config : ProtocolConfig)
    (bytes : Bytes) (s : Session σ) : Prop where
  options : s.parser.options = parserOptionsFromConfig config
  bounded : Bounded s.parser
  -- a command that was executed was spelt by the bytes, and the rest is in the buffer
  spelt : s.refused = false → Spelt (CommandText (parserOptionsFromConfig config))
    (s.executed.map Prod.fst) bytes s.parser.buffer
  accounted : Accounted s

/-- Until the connection is condemned, the output is within its limit. -/
def OutputLimited (config : ProtocolConfig) (s : Session σ) : Prop :=
  s.closeAfterWrite = false → s.writeBuffer.length ≤ config.maxOutputBufferBytes

/-- What holds whenever the worker is not inside `drain_commands`: no command is left. -/
structure Dialogue (exec : σ → List Bytes → CommandResult × σ) (config : ProtocolConfig)
    (bytes : Bytes) (s : Session σ) : Prop extends Talking exec config bytes s where
  output : OutputLimited config s
  prompt : s.refused = false → s.closeAfterWrite = false →
    s.parser.nextCommand = (.needMore, s.parser)

/-- The parser keeps its limits. -/
theorem options_nextCommand {p p' : Parser} {r : CommandParseResult} (h : p.nextCommand = (r, p')) :
    p'.options = p.options := by
  obtain ⟨n, rfl⟩ := Parser.nextCommand_discards h
  rfl

namespace Talking

/-- A refusal ends the dialogue. -/
theorem refuse (h : Talking exec config bytes s) (hrefused : s'.refused = true)
    (hclose : s'.closeAfterWrite = true) (hoptions : s'.parser.options = s.parser.options)
    (hbounded : Bounded s'.parser) : Dialogue exec config bytes s' := by
  have hnot : s'.refused ≠ false := by simp [hrefused]
  have hcondemned : s'.closeAfterWrite ≠ false := by simp [hclose]
  exact ⟨⟨hoptions.trans h.options, hbounded, fun hopen => absurd hopen hnot,
    fun hopen => absurd hopen hnot⟩, fun hopen => absurd hopen hcondemned,
    fun hopen => absurd hopen hnot⟩

/-- A command is executed and its reply appended. -/
theorem execute (h : Talking exec config bytes s) {c : Command} {p : Parser}
    (hnext : s.parser.nextCommand = (.ok c, p)) :
    Talking exec config bytes (({ s with parser := p } : Session σ).execute exec c.args).2 := by
  refine ⟨(options_nextCommand hnext).trans h.options, bounded_nextCommand h.bounded hnext, ?_, ?_⟩
  · intro hrefused
    have hspelt := h.spelt hrefused
    have htext := commandText_of_nextCommand h.bounded hnext
    rw [h.options] at htext
    rw [← (Parser.raw_append_buffer hnext).1] at hspelt
    simpa only [Session.execute, List.map_append, List.map_singleton] using hspelt.snoc htext
  · intro hrefused
    show s.replies ++ _ = s.sent ++ (s.writeBuffer ++ _)
    rw [h.accounted hrefused, List.append_assoc]

/-- `drain_commands` executes what has arrived. -/
theorem drainCommands (h : Talking exec config bytes s) (houtput : OutputLimited config s) :
    Dialogue exec config bytes (drainCommands exec config s).2 := by
  refine drainCommands_induction (I := fun s => Talking exec config bytes s ∧ OutputLimited config s)
    ?_ ?_ ?_ ?_ ?_ ⟨h, houtput⟩
  · rintro s p ⟨h, houtput⟩ hnext
    obtain rfl := Parser.nextCommand_needMore hnext
    exact ⟨h, houtput, fun _ _ => hnext⟩
  · rintro s message p ⟨h, -⟩ hnext
    exact h.refuse rfl rfl (options_nextCommand hnext) (bounded_nextCommand h.bounded hnext)
  · rintro s c p ⟨h, -⟩ hnext hclose
    have hcondemned :
        (({ s with parser := p } : Session σ).execute exec c.args).2.closeAfterWrite ≠ false := by
      show (s.closeAfterWrite || (exec s.shared c.args).1.closeAfterWrite) ≠ false
      simp [hclose]
    exact ⟨h.execute hnext, fun hopen => absurd hopen hcondemned,
      fun _ hopen => absurd hopen hcondemned⟩
  · -- the output that is thrown away holds the reply to this command as well
    rintro s c p ⟨h, -⟩ hnext
    have hexecuted := h.execute hnext
    exact hexecuted.refuse rfl rfl rfl hexecuted.bounded
  · rintro s c p ⟨h, -⟩ hnext - hlimit
    exact ⟨h.execute hnext, fun _ => hlimit⟩

end Talking

/-- It holds of a new connection. -/
theorem dialogue_fresh (shared : σ) : Dialogue exec config [] (.fresh config shared) where
  options := rfl
  bounded := Nat.zero_le _
  spelt _ := .nil []
  accounted _ := rfl
  output _ := Nat.zero_le _
  prompt _ _ := rfl

variable (exec config) in
/-- Every event keeps it. -/
theorem kept_dialogue : Kept exec config (Dialogue exec config) where
  congr _ _ _ _ h := ⟨⟨h.options, h.bounded, h.spelt, h.accounted⟩, h.output, h.prompt⟩
  receive bytes s chunk hbounded h := by
    have hextended : Talking exec config (bytes ++ chunk) { s with parser := s.parser.extend chunk } :=
      ⟨h.options, hbounded, fun hrefused => (h.spelt hrefused).extend chunk, h.accounted⟩
    exact hextended.drainCommands h.output
  refuse _ _ _ h := h.toTalking.refuse rfl rfl rfl h.bounded
  write bytes s n h := by
    refine ⟨⟨h.options, h.bounded, h.spelt, fun hrefused => ?_⟩, fun hopen => ?_, h.prompt⟩
    · show s.replies = (s.sent ++ s.writeBuffer.take n) ++ s.writeBuffer.drop n
      rw [List.append_assoc, List.take_append_drop]
      exact h.accounted hrefused
    · have hle := h.output hopen
      simp only [List.length_drop]
      omega

variable (exec config) in
/-- Every run of a connection is a dialogue about the bytes that it has heard. -/
theorem dialogue_run (shared : σ) (events : List (Event σ)) :
    Dialogue exec config (heard exec config (.fresh config shared) events)
      (run exec config shared events) :=
  (kept_dialogue exec config).run_from (dialogue_fresh shared) events

/-! ## What is executed -/

/-- Neither refused nor to be closed. -/
def Open (s : Session σ) : Prop := s.refused = false ∧ s.closeAfterWrite = false

/-- On an open connection the buffer does not begin with a command. -/
theorem Dialogue.no_text_left (h : Dialogue exec config bytes s) (hopen : s.Open)
    (args : List Bytes) (text : Bytes) (htext : CommandText (parserOptionsFromConfig config) args text) :
    ¬ text <+: s.parser.buffer := by
  have hprompt := h.prompt hopen.1 hopen.2
  have hparser : s.parser = ⟨parserOptionsFromConfig config, s.parser.buffer⟩ := by
    rw [← h.options]
  rw [hparser] at hprompt
  exact not_prefix_of_needMore hprompt args text htext

/-- What is executed is determined by what is heard. -/
theorem Dialogue.executed_eq (h : Dialogue exec config bytes s) (hopen : s.Open)
    {commands : List (List Bytes)} {rest : Bytes}
    (hspelt : Spelt (CommandText (parserOptionsFromConfig config)) commands bytes rest)
    (hrest : ∀ args text, CommandText (parserOptionsFromConfig config) args text → ¬ text <+: rest) :
    s.executed.map Prod.fst = commands ∧ s.parser.buffer = rest :=
  (h.spelt hopen.1).unique (selfDelimiting_commandText _) (h.no_text_left hopen) hspelt hrest

/-- **The bytes alone decide what is executed.** Two connections that hear the same bytes execute the
same commands and are left with the same rest, whatever the chunks, the order of events, the replies
and the data. -/
theorem same_bytes_same_commands {σ₁ σ₂ : Type} {exec₁ : σ₁ → List Bytes → CommandResult × σ₁}
    {exec₂ : σ₂ → List Bytes → CommandResult × σ₂} (config : ProtocolConfig) (shared₁ : σ₁)
    (shared₂ : σ₂) (events₁ : List (Event σ₁)) (events₂ : List (Event σ₂))
    (hopen₁ : (run exec₁ config shared₁ events₁).Open)
    (hopen₂ : (run exec₂ config shared₂ events₂).Open)
    (hbytes : heard exec₁ config (.fresh config shared₁) events₁
      = heard exec₂ config (.fresh config shared₂) events₂) :
    (run exec₁ config shared₁ events₁).executed.map Prod.fst
        = (run exec₂ config shared₂ events₂).executed.map Prod.fst ∧
      (run exec₁ config shared₁ events₁).parser = (run exec₂ config shared₂ events₂).parser := by
  have h₁ := dialogue_run exec₁ config shared₁ events₁
  have h₂ := dialogue_run exec₂ config shared₂ events₂
  rw [hbytes] at h₁
  obtain ⟨hexecuted, hbuffer⟩ := h₁.executed_eq hopen₁ (h₂.spelt hopen₂.1) (h₂.no_text_left hopen₂)
  refine ⟨hexecuted, ?_⟩
  rw [Parser.mk.injEq]
  exact ⟨h₁.options.trans h₂.options.symm, hbuffer⟩

/-- Two commands in one chunk, and the same bytes in two chunks while another client is served. -/
def oneChunk : List (Event Shared) := Event.chunk "PING\r\nECHO a\r\n"

/-- The same bytes in two chunks. -/
def twoChunks : List (Event Shared) :=
  Event.chunk "PING\r\nEC" ++ [.others { freshShared with now := 7 }] ++ Event.chunk "HO a\r\n"

theorem chunks_same_commands :
    (plainSession oneChunk).executed.map Prod.fst = [[ascii "PING"], [ascii "ECHO", ascii "a"]] ∧
      (plainSession oneChunk).executed.map Prod.fst = (plainSession twoChunks).executed.map Prod.fst ∧
      (plainSession oneChunk).parser = (plainSession twoChunks).parser := by
  refine ⟨by decide +kernel, same_bytes_same_commands {} freshShared freshShared oneChunk twoChunks ?_
    ?_ ?_⟩
  · exact ⟨by decide +kernel, by decide +kernel⟩
  · exact ⟨by decide +kernel, by decide +kernel⟩
  · decide +kernel

/-- **A pipeline of commands.** While the encodings of commands within the limits arrive, in chunks of
any size, a connection that stays open has executed exactly those that have arrived completely, once
and in their order. What it has written and has yet to write is what the executor replies to them, one
after the other, on data that changes only by these commands and, in between, by others. -/
theorem executes_what_was_sent (shared : σ) (events : List (Event σ)) {commands : List (List Bytes)}
    (hlimits : ∀ args ∈ commands, WithinLimits (parserOptionsFromConfig config) args)
    (harrived : heard exec config (.fresh config shared) events <+: commands.flatMap encodeCommand)
    (hopen : (run exec config shared events).Open) :
    ∃ first others, commands = first ++ others ∧
      (run exec config shared events).executed.map Prod.fst = first ∧
      heard exec config (.fresh config shared) events
        = first.flatMap encodeCommand ++ (run exec config shared events).parser.buffer ∧
      (∀ next ∈ others.head?, ¬ encodeCommand next <+: (run exec config shared events).parser.buffer) ∧
      (story exec config (.fresh config shared) events).filterMap Sum.getLeft? = first ∧
      serve exec shared (story exec config (.fresh config shared) events)
        = ((run exec config shared events).sent ++ (run exec config shared events).writeBuffer,
          (run exec config shared events).shared) := by
  have h := dialogue_run exec config shared events
  have hserves := serves_run exec config (.fresh config shared) events
  obtain ⟨first, others, rest, rfl, hheard, hrest⟩ := cut_encoded encodeCommand harrived
  have htexts : ∀ args ∈ first ++ others,
      CommandText (parserOptionsFromConfig config) args (encodeCommand args) :=
    fun args hargs => commandText_encodeCommand (hlimits args hargs)
  -- what has arrived of the next command does not begin with a whole one
  have hnone : ∀ args text, CommandText (parserOptionsFromConfig config) args text →
      ¬ text <+: rest := by
    intro args text htext hfront
    rcases hrest with rfl | ⟨next, hnext, hbegun, hne⟩
    · obtain rfl := List.prefix_nil.mp hfront
      cases htext.2
    · have hwhole := htexts next (List.mem_append_right first (List.mem_of_mem_head? hnext))
      obtain ⟨-, rfl⟩ := selfDelimiting_commandText _ _ _ _ _ htext hwhole (hfront.trans hbegun)
      exact hne (hbegun.eq_of_length_le hfront.length_le)
  have hspelt : Spelt (CommandText (parserOptionsFromConfig config)) first
      (first.flatMap encodeCommand ++ rest) rest :=
    .of_encode (fun args hargs => htexts args (List.mem_append_left others hargs)) rest
  rw [← hheard] at hspelt
  obtain ⟨hexecuted, hbuffer⟩ := h.executed_eq hopen hspelt hnone
  refine ⟨first, others, rfl, hexecuted, ?_, ?_, ?_, ?_⟩
  · rw [hbuffer]
    exact hheard
  · intro next hnext hfront
    rw [hbuffer] at hfront
    have hwhole := htexts next (List.mem_append_right first (List.mem_of_mem_head? hnext))
    exact hnone _ _ hwhole hfront
  · rw [← hexecuted]
    exact hserves.executed.symm
  · rw [← h.accounted hopen.1]
    exact Prod.ext hserves.replies.symm hserves.shared.symm

/-- One command, a change by others, a second command, and a part of the third. -/
def begun : List (Event Shared) :=
  Event.chunk "*1\r\n$4\r\nPING\r\n*1\r\n" ++ [.others { freshShared with now := 7 }] ++
    Event.chunk "$4\r\nPING\r\n*1\r\n$4"

theorem begun_executed :
    ∃ first others, [[ascii "PING"], [ascii "PING"], [ascii "PING"]] = first ++ others ∧
      (plainSession begun).executed.map Prod.fst = first ∧
      heard (registryExec (.plain {}) .listed) {} (.fresh {} freshShared) begun
        = first.flatMap encodeCommand ++ (plainSession begun).parser.buffer ∧
      (∀ next ∈ others.head?, ¬ encodeCommand next <+: (plainSession begun).parser.buffer) ∧
      (story (registryExec (.plain {}) .listed) {} (.fresh {} freshShared) begun).filterMap
        Sum.getLeft? = first ∧
      serve (registryExec (.plain {}) .listed) freshShared
          (story (registryExec (.plain {}) .listed) {} (.fresh {} freshShared) begun)
        = ((plainSession begun).sent ++ (plainSession begun).writeBuffer,
          (plainSession begun).shared) := by
  refine executes_what_was_sent freshShared begun ?_ ?_ ?_
  · decide +kernel
  · decide +kernel
  · exact ⟨by decide +kernel, by decide +kernel⟩

/-! ## The last reply -/

/-- A connection that is to be closed has something to write. -/
def Owes (s : Session σ) : Prop := s.closeAfterWrite = true → s.writeBuffer ≠ []

/-- A result that closes the connection has a reply. -/
def ClosesWithReply (exec : σ → List Bytes → CommandResult × σ) : Prop :=
  ∀ shared args, (exec shared args).1.closeAfterWrite = true → (exec shared args).1.response ≠ []

variable (config) in
/-- A farewell among the requests leaves its reply to be sent. -/
theorem Owes.drainCommands (hexec : ClosesWithReply exec) (h : Owes s) :
    Owes (drainCommands exec config s).2 := by
  have hexecute : ∀ (s : Session σ) args, Owes s → Owes (s.execute exec args).2 := by
    intro s args h hclose
    simp only [execute, Bool.or_eq_true] at hclose ⊢
    rcases hclose with hbefore | hnow
    · exact List.append_ne_nil_of_left_ne_nil (h hbefore) _
    · exact List.append_ne_nil_of_right_ne_nil _ (hexec _ _ hnow)
  refine drainCommands_induction (I := Owes) ?_ ?_ ?_ ?_ ?_ h
  · exact fun s p h _ => h
  · exact fun s message p h _ _ => List.append_ne_nil_of_right_ne_nil _ (List.cons_ne_nil _ _)
  · exact fun s c p h _ _ => hexecute { s with parser := p } c.args h
  · exact fun s c p h _ _ => List.cons_ne_nil _ _
  · exact fun s c p h _ _ _ => hexecute { s with parser := p } c.args h

/-- `write_to` on a connection that is to be closed: when the last byte is written, it is closed. -/
theorem run_writes {hangup : Bool} {sizes : List ℕ} (hphase : s.phase = .writing hangup)
    (hclose : s.closeAfterWrite = true) (hne : s.writeBuffer ≠ []) (hsizes : ∀ n ∈ sizes, 0 < n)
    (hsum : sizes.sum = s.writeBuffer.length) :
    Machine.run (step exec config) s ((sizes.map .wrote).map .write)
      = { s with phase := .closed, writeBuffer := [], sent := s.sent ++ s.writeBuffer } := by
  induction sizes generalizing s with
  | nil => exact absurd (List.length_eq_zero_iff.mp (by simpa using hsum.symm)) hne
  | cons n sizes ih =>
    obtain ⟨m, rfl⟩ : ∃ m, n = m + 1 := Nat.exists_eq_succ_of_ne_zero (hsizes n List.mem_cons_self).ne'
    rw [List.sum_cons] at hsum
    have hstep : step exec config s (.write (.wrote (m + 1))) = afterWrite hangup (writeToTest { s with
        writeBuffer := s.writeBuffer.drop (m + 1)
        sent := s.sent ++ s.writeBuffer.take (m + 1) }) := by
      simp only [step, hphase, writeToRound]
    rw [List.map_cons, List.map_cons, Machine.run_cons, hstep, writeToTest]
    cases sizes with
    | nil =>
      have hall : s.writeBuffer.length ≤ m + 1 := by simpa using hsum.ge
      simp only [List.drop_eq_nil_of_le hall, List.take_of_length_le hall, if_true, hclose]
      rfl
    | cons k rest =>
      have hk := hsizes k (by simp)
      have hleft : s.writeBuffer.drop (m + 1) ≠ [] := by
        rw [Ne, List.drop_eq_nil_iff]
        rw [List.sum_cons] at hsum
        omega
      rw [if_neg hleft]
      refine (ih (s := { s with
          writeBuffer := s.writeBuffer.drop (m + 1)
          sent := s.sent ++ s.writeBuffer.take (m + 1)
          phase := .writing hangup }) rfl hclose hleft
        (fun j hj => hsizes j (List.mem_cons_of_mem _ hj)) ?_).trans ?_
      · simp only [List.length_drop]
        omega
      · simp only [List.append_assoc, List.take_append_drop]

/-- Unless it is closed, a connection that is to be closed has something to write. -/
def Condemned (s : Session σ) : Prop := s.phase ≠ .closed → Owes s

theorem condemned_afterWrite {r : Session σ ⊕ (Bool × Session σ)}
    (h : ∀ s, r = .inl s ∨ r = .inr (true, s) → Owes s) (hangup : Bool) :
    Condemned (afterWrite hangup r) := by
  rcases r with s | ⟨b, s⟩
  · exact fun _ => h s (.inl rfl)
  · cases b with
    | false => exact fun hopen => absurd rfl hopen
    | true =>
      obtain ⟨phase, hphase⟩ := checkHangup_eq hangup s
      rw [afterWrite, hphase]
      exact fun _ => h s (.inr rfl)

/-- `write_to` goes on only while there is something to write, and returns `true` with an empty buffer
only on a connection that stays open. -/
theorem owes_writeToRound (h : Owes s) (r : WriteResult) :
    ∀ s', writeToRound r s = .inl s' ∨ writeToRound r s = .inr (true, s') → Owes s' := by
  intro s' hs'
  rw [writeToRound.eq_def] at hs'
  split at hs'
  · rcases hs' with hs' | hs' <;> cases hs'
  · rw [writeToTest] at hs'
    split_ifs at hs' with hempty
    · rcases hs' with hs' | hs'
      · cases hs'
      · rw [Sum.inr.injEq, Prod.mk.injEq] at hs'
        obtain ⟨hstays, rfl⟩ := hs'
        intro hclose
        simp only at hclose hstays
        rw [hclose] at hstays
        cases hstays
    · rcases hs' with hs' | hs' <;> cases hs'
      exact fun _ => hempty
  · rcases hs' with hs' | hs' <;> cases hs'
    exact h
  · rcases hs' with hs' | hs' <;> cases hs'
    exact h
  · rcases hs' with hs' | hs' <;> cases hs'

variable (config) in
/-- Every event leaves a connection that is to be closed with a reply to write: `write_to` closes it
when it has written the last byte. -/
theorem Condemned.step (hexec : ClosesWithReply exec) (h : Condemned s) (e : Event σ) :
    Condemned (step exec config s e) := by
  cases e with
  | ready mask =>
    rw [Session.step]
    split_ifs with hidle
    · obtain ⟨phase, hphase⟩ := dispatch_eq s mask
      rw [hphase]
      exact fun _ => h (by rw [hidle]; simp)
    · exact h
  | read r =>
    rw [Session.step]
    split
    · next writable hangup hreading =>
      have howes : Owes s := h (by rw [hreading]; simp)
      have hround : Owes (outcome (readFromRound exec config r s)) := by
        rcases outcome_readFromRound exec config s r with ⟨-, hsame | ⟨message, hrefused⟩⟩ |
          ⟨-, hdrained⟩
        · rw [hsame]
          exact howes
        · rw [hrefused]
          exact fun _ => List.append_ne_nil_of_right_ne_nil _ (List.cons_ne_nil _ _)
        · rw [hdrained]
          exact Owes.drainCommands config hexec howes
      obtain ⟨phase, hphase⟩ := afterRead_eq writable hangup (readFromRound exec config r s)
      rw [hphase]
      exact fun _ => hround
    · exact h
  | write r =>
    rw [Session.step]
    split
    · next hangup hwriting =>
      have howes : Owes s := h (by rw [hwriting]; simp)
      exact condemned_afterWrite (owes_writeToRound howes r) hangup
    · exact h
  | others shared => exact h
  | stop =>
    rw [Session.step]
    split_ifs
    · exact fun hopen => absurd rfl hopen
    · exact h

end Session

/-! ## All connections of a worker -/

namespace Pool

open Session

variable {σ : Type} {exec : σ → List Bytes → CommandResult × σ} {config : ProtocolConfig}

/-- The registry says farewell with a reply. -/
theorem registry_closesWithReply (env : Env) (order : IterationOrder) :
    ClosesWithReply (registryExec env order) := by
  intro shared args
  have hleaves := CommandRegistry.leaves_execute env order shared.now shared.ctx args shared.world
  rw [registryExec]
  unfold FileProgram.Spec at hleaves
  split at hleaves
  · next hrun =>
    intro hclose
    rw [hrun] at hclose ⊢
    rw [hleaves hclose]
    exact List.cons_ne_nil _ _
  · next hrun =>
    intro hclose
    rw [hrun] at hclose
    cases hclose

/-- **Buffers are bounded.** No connection of a worker holds more input than `max_request_bytes`, nor,
until it is to be closed, more output than `max_output_buffer_bytes`. -/
theorem buffers_bounded (shared : σ) (events : List (PoolEvent σ)) {fd : ℕ} {s : Session σ}
    (hs : (run exec config shared events).connections fd = some s) :
    s.parser.bufferedBytes ≤ config.maxRequestBytes ∧
      (s.closeAfterWrite = false → s.writeBuffer.length ≤ config.maxOutputBufferBytes) := by
  obtain ⟨bytes, h⟩ := (kept_dialogue exec config).connections dialogue_fresh shared events hs
  have hinput := h.bounded
  rw [Bounded, h.options] at hinput
  exact ⟨hinput, h.output⟩

theorem twoClients_bounded :
    ∃ s, (plainPool twoClients).connections 6 = some s ∧ s.parser.buffer = ascii "SET k" ∧
      s.parser.bufferedBytes ≤ ({} : ProtocolConfig).maxRequestBytes ∧
      (s.closeAfterWrite = false →
        s.writeBuffer.length ≤ ({} : ProtocolConfig).maxOutputBufferBytes) := by
  have hsome : ((plainPool twoClients).connections 6).map (·.parser.buffer)
      = some (ascii "SET k") := by decide +kernel
  obtain ⟨s, hs, hbuffer⟩ := Option.map_eq_some_iff.mp hsome
  exact ⟨s, hs, hbuffer, buffers_bounded freshShared twoClients hs⟩

/-- The writes on the connection that is being handled are steps of its session. -/
theorem run_write_active {p : Pool σ} {fd : ℕ} {s : Session σ} (hactive : p.active = some fd)
    (hs : p.connections fd = some s) (hshared : s.shared = p.shared) (rs : List WriteResult) :
    Machine.run (step exec config) p (rs.map .write) = { p with
      shared := (Machine.run (Session.step exec config) s (rs.map .write)).shared
      connections := Function.update p.connections fd
        (some (Machine.run (Session.step exec config) s (rs.map .write))) } := by
  induction rs generalizing p s with
  | nil => simp only [List.map_nil, Machine.run_nil, hshared, ← hs, Function.update_eq_self]
  | cons r rs ih =>
    have hstep : p.step exec config (.write r) = { p with
        shared := (Session.step exec config s (.write r)).shared
        connections := Function.update p.connections fd
          (some (Session.step exec config s (.write r))) } := by
      simp only [step, handleActive, hactive, hs, handle, ← hshared]
    have hs₁ : (p.step exec config (.write r)).connections fd
        = some (Session.step exec config s (.write r)) := by
      rw [hstep]
      exact Function.update_self ..
    rw [List.map_cons, List.map_cons, Machine.run_cons, Machine.run_cons,
      ih (by rw [hstep]; exact hactive) hs₁ (by rw [hstep]), hstep]
    simp only [Function.update_idem]

/-- The events of a round in which the socket takes what is left to be written, in pieces of these
sizes. -/
def flushing (fd : ℕ) (sizes : List ℕ) : List (PoolEvent σ) :=
  [.wait [.client fd { writable := true }], .next] ++ (sizes.map .wrote).map .write

/-- A condemned connection that is written out is closed. -/
theorem flushing_closes {p : Pool σ} {fd : ℕ} {s : Session σ} {sizes : List ℕ}
    (hwaiting : p.Waiting) (hs : p.connections fd = some s) (hidle : s.phase = .idle)
    (hclose : s.closeAfterWrite = true) (hne : s.writeBuffer ≠ []) (hsizes : ∀ n ∈ sizes, 0 < n)
    (hsum : sizes.sum = s.writeBuffer.length) (modified : Bool) :
    (∃ s', (Machine.run (step exec config) p (flushing fd sizes)).connections fd = some s' ∧
      s'.sent = s.sent ++ s.writeBuffer) ∧
    (Machine.run (step exec config) p (flushing fd sizes ++ [.finish modified, .close])).connections fd
      = none := by
  -- `epoll_wait` returns with the connection, and `write_to` begins
  have hbegin : Machine.run (step exec config) p [.wait [.client fd { writable := true }], .next]
      = { p with
          active := some fd
          connections := Function.update p.connections fd
            (some { s with shared := p.shared, phase := .writing false }) } := by
    have hdispatch : Session.step exec config { s with shared := p.shared } (.ready { writable := true })
        = { s with shared := p.shared, phase := .writing false } := by
      simp only [Session.step, hidle, if_true, dispatch, Bool.false_eq_true, if_false, checkWritable,
        writeToTest, if_neg hne, afterWrite]
    have hnodup : (([.client fd { writable := true }] : List Ready).filterMap Ready.client?).Nodup :=
      List.nodup_singleton fd
    simp only [Machine.run_cons, Machine.run_nil, step, if_pos (And.intro hwaiting hnodup), kMaxEvents,
      List.take, hwaiting.1, hs, handle, hdispatch, hwaiting.2.1]
  have hflushed : Machine.run (step exec config) p (flushing fd sizes) = { p with
      active := some fd
      connections := Function.update p.connections fd (some { s with
        shared := p.shared
        phase := .closed
        writeBuffer := []
        sent := s.sent ++ s.writeBuffer }) } := by
    rw [flushing, Machine.run_append]
    refine (run_write_active (s := { s with shared := p.shared, phase := .writing false })
      (by rw [hbegin]) (by rw [hbegin]; exact Function.update_self ..) (by rw [hbegin]) _).trans ?_
    rw [Session.run_writes (s := { s with shared := p.shared, phase := .writing false }) rfl hclose hne
      hsizes hsum, hbegin]
    simp only [Function.update_idem]
  rw [Machine.run_append, hflushed]
  refine ⟨⟨_, Function.update_self .., rfl⟩, ?_⟩
  simp only [Machine.run_cons, Machine.run_nil, step, finish, Function.update_self, hwaiting.2.1,
    hwaiting.2.2, List.nil_append]

/-- **A condemned connection goes away.** As long as `epoll_ctl(EPOLL_CTL_MOD)` does not fail, a
connection that is to be closed is registered for writing whenever the worker waits. It has a last
reply, and a round in which the socket takes that, in pieces of any sizes, sends it and closes the
connection. -/
theorem condemned_waits_for_socket (env : Env) (order : IterationOrder) (shared : Shared)
    {events : List (PoolEvent Shared)} (hmodified : ∀ e ∈ events, Modified e)
    (hwaiting : (run (registryExec env order) config shared events).Waiting) {fd : ℕ}
    {s : Session Shared}
    (hs : (run (registryExec env order) config shared events).connections fd = some s)
    (hclose : s.closeAfterWrite = true) :
    (run (registryExec env order) config shared events).interest fd = some true ∧
      s.writeBuffer ≠ [] ∧
      ∀ sizes : List ℕ, (∀ n ∈ sizes, 0 < n) → sizes.sum = s.writeBuffer.length → ∀ modified,
        (∃ s', (run (registryExec env order) config shared (events ++ flushing fd sizes)).connections fd
          = some s' ∧ s'.sent = s.sent ++ s.writeBuffer) ∧
        (run (registryExec env order) config shared
          (events ++ (flushing fd sizes ++ [.finish modified, .close]))).connections fd = none := by
  have hcondemned : Condemned s :=
    connections_run (fun _ _ hfresh => by cases hfresh)
      (fun s shared e (h : Condemned s) => Condemned.step config (registry_closesWithReply env order)
        (s := { s with shared }) h e) shared events fd s hs
  obtain ⟨hinterest, hidle⟩ :=
    registered_of_waiting (registryExec env order) config shared hmodified hwaiting fd
  have howes : s.writeBuffer ≠ [] := hcondemned (by rw [hidle s hs]; simp) hclose
  refine ⟨?_, howes, fun sizes hsizes hsum modified => ?_⟩
  · rw [hinterest, pollSet, hs, Option.map_some, wantsWrite]
    simpa using howes
  · rw [run, run, Machine.run_append, Machine.run_append]
    exact flushing_closes hwaiting hs (hidle s hs) hclose howes hsizes hsum modified

/-- A client that sends what is not a command. -/
def strayClient : List (PoolEvent Shared) :=
  [.wait [.wakeup [(5, true)]], .next, .wait [.client 5 { readable := true }], .next,
    .read (.bytes (ascii "+x\r\n")), .finish true]

/-- The reply to it is 50 bytes long, and is taken in two pieces. -/
theorem strayClient_waits_for_socket :
    ∃ s, (plainPool strayClient).connections 5 = some s ∧ s.closeAfterWrite = true ∧
      (plainPool strayClient).interest 5 = some true ∧
      (plainPool (strayClient ++ (flushing 5 [45, 5] ++ [.finish true, .close]))).connections 5
        = none := by
  have hsome : ((plainPool strayClient).connections 5).map
      (fun s => (s.closeAfterWrite, s.writeBuffer.length)) = some (true, 50) := by
    decide +kernel
  obtain ⟨s, hs, hends⟩ := Option.map_eq_some_iff.mp hsome
  rw [Prod.mk.injEq] at hends
  have hmodified : ∀ e ∈ strayClient, Modified e := by simp [strayClient, Modified]
  obtain ⟨hinterest, -, hgoes⟩ := condemned_waits_for_socket (.plain {}) .listed freshShared hmodified
    (by decide +kernel) hs hends.1
  exact ⟨s, hs, hends.1, hinterest, (hgoes [45, 5] (by decide) hends.2.symm true).2⟩

end Pool

end VeloxDb.Net
