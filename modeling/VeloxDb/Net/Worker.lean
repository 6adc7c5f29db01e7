import VeloxDb.Commands.Data
import VeloxDb.Common.Machine
import VeloxDb.Protocol.Stream

/-!
# `net/tcp_server.cpp`: a connection of a worker

What a worker does with one connection is a state machine. `epoll_wait` (or `poll`) reports a mask
of events; then `read_from` calls `read` until it would block, `write_to` calls `write` until the
buffer is empty or it would block, and a hang-up closes the connection once there is nothing left to
write. Every answer of the kernel is an event of the machine, so a run is any sequence of chunks,
partial writes and masks, in any order.

`exec` stands for the registry with everything the connections share. Other connections may change
that at any time between two steps (`Event.others`).
-/

namespace VeloxDb.Net

open Resp

/-- Where the worker is with this connection. In `reading` and `writing` it is inside `read_from`
and `write_to`, with the rest of the mask still to be looked at. -/
inductive Phase
  | idle
  | reading (writable hangup : Bool)
  | writing (hangup : Bool)
  | closed
deriving DecidableEq, Repr

/-- `Worker::Connection`, without its descriptor and its peer. -/
structure Connection where
  parser : Parser
  writeBuffer : Bytes := []
  closeAfterWrite : Bool := false

/-- A connection, what the connections share, and what has happened on it: the commands executed,
each with the value that `close_after_write` had before it, all replies to them, the bytes written
to the socket, and whether a protocol error or a limit has ended the stream. -/
structure Session (σ : Type) extends Connection where
  shared : σ
  phase : Phase := .idle
  executed : List (List Bytes × Bool) := []
  replies : Bytes := []
  sent : Bytes := []
  refused : Bool := false

/-- An answer to `read`; no bytes are the end of the stream. -/
inductive ReadResult
  | bytes (chunk : Bytes)
  | wouldBlock
  | interrupted
  | failed
deriving DecidableEq, Repr

/-- An answer to `write`. -/
inductive WriteResult
  | wrote (n : ℕ)
  | wouldBlock
  | interrupted
  | failed
deriving DecidableEq, Repr

/-- What is reported for the connection; `hangup` is `EPOLLHUP`, `EPOLLRDHUP` or `POLLHUP`. -/
structure Mask where
  error : Bool := false
  readable : Bool := false
  writable : Bool := false
  hangup : Bool := false
deriving DecidableEq, Repr

inductive Event (σ : Type)
  | ready (mask : Mask)
  | read (r : ReadResult)
  | write (r : WriteResult)
  | others (shared : σ)
  | stop

namespace Session

variable {σ : Type} (exec : σ → List Bytes → CommandResult × σ) (config : ProtocolConfig)

/-- A connection as it is installed. -/
def fresh (shared : σ) : Session σ :=
  { parser := { options := parserOptionsFromConfig config }, shared }

/-- A protocol error: the reply is appended and the connection is closed when it is written. -/
def protocolError (s : Session σ) (message : Bytes) : Session σ :=
  { s with
    writeBuffer := s.writeBuffer ++ Resp.error (ascii "protocol error: " ++ message)
    closeAfterWrite := true
    refused := true }

/-- `registry_.execute` on a parsed command. -/
def execute (s : Session σ) (args : List Bytes) : CommandResult × Session σ :=
  let (result, shared) := exec s.shared args
  (result, { s with
    shared
    writeBuffer := s.writeBuffer ++ result.response
    closeAfterWrite := s.closeAfterWrite || result.closeAfterWrite
    executed := s.executed ++ [(args, s.closeAfterWrite)]
    replies := s.replies ++ result.response })

/-- One round of `drain_commands`. -/
def drainRound (s : Session σ) : Session σ ⊕ (Bool × Session σ) :=
  match s.parser.nextCommand with
  | (.needMore, parser) => .inr (true, { s with parser })
  | (.error message, parser) => .inr (false, { s with parser }.protocolError message)
  | (.ok command, parser) =>
    let (result, s) := { s with parser }.execute exec command.args
    if result.closeAfterWrite then .inr (true, s)
    else if s.writeBuffer.length > config.maxOutputBufferBytes then
      .inr (false, { s with
        writeBuffer := Resp.error (ascii "output buffer limit exceeded")
        closeAfterWrite := true
        refused := true })
    else .inl s

theorem drainRound_lowers :
    Loop.Lowers (drainRound exec config) fun s : Session σ => s.parser.buffer.length := by
  intro s s' h
  simp only [drainRound] at h
  split at h
  · cases h
  · cases h
  · next command parser hnext =>
    split_ifs at h
    cases h
    exact length_buffer_lt_of_nextCommand hnext

def drainCommands (s : Session σ) : Bool × Session σ :=
  Loop.runUntil (drainRound exec config) (fun s => s.parser.buffer.length)
    (drainRound_lowers exec config) s

/-- One round of `read_from`. -/
def readFromRound (r : ReadResult) (s : Session σ) : Session σ ⊕ (Bool × Session σ) :=
  match r with
  | .bytes [] => .inr (false, s)
  | .bytes chunk =>
    let (status, parser) := s.parser.append chunk
    if !status.isOk then .inr (true, s.protocolError status.message)
    else
      match drainCommands exec config { s with parser } with
      | (true, s) => .inl s
      | (false, s) => .inr (true, s)
  | .wouldBlock => .inr (true, s)
  | .interrupted => .inl s
  | .failed => .inr (false, s)

/-- The loop test of `write_to`. -/
def writeToTest (s : Session σ) : Session σ ⊕ (Bool × Session σ) :=
  if s.writeBuffer = [] then .inr (!s.closeAfterWrite, s) else .inl s

/-- One round of `write_to`, up to the next loop test. -/
def writeToRound (r : WriteResult) (s : Session σ) : Session σ ⊕ (Bool × Session σ) :=
  match r with
  | .wrote 0 => .inr (false, s)
  | .wrote n => writeToTest { s with
      writeBuffer := s.writeBuffer.drop n
      sent := s.sent ++ s.writeBuffer.take n }
  | .wouldBlock => .inr (true, s)
  | .interrupted => .inl s
  | .failed => .inr (false, s)

/-! ## The event dispatch -/

/-- The test of a hang-up, which ends the handling of a mask. -/
def checkHangup (hangup : Bool) (s : Session σ) : Session σ :=
  if hangup && s.writeBuffer.isEmpty then { s with phase := .closed } else { s with phase := .idle }

/-- `write_to` has gone round, or has returned. -/
def afterWrite (hangup : Bool) : Session σ ⊕ (Bool × Session σ) → Session σ
  | .inl s => { s with phase := .writing hangup }
  | .inr (false, s) => { s with phase := .closed }
  | .inr (true, s) => s.checkHangup hangup

/-- The writable part of a mask, behind the readable one. -/
def checkWritable (writable hangup : Bool) (s : Session σ) : Session σ :=
  if writable then afterWrite hangup s.writeToTest else s.checkHangup hangup

/-- `read_from` has gone round, or has returned. -/
def afterRead (writable hangup : Bool) : Session σ ⊕ (Bool × Session σ) → Session σ
  | .inl s => { s with phase := .reading writable hangup }
  | .inr (false, s) => { s with phase := .closed }
  | .inr (true, s) => s.checkWritable writable hangup

/-- The dispatch of `loop_epoll`, and of `loop_poll`, which makes the same tests in the same order.
-/
def dispatch (s : Session σ) (mask : Mask) : Session σ :=
  if mask.error then { s with phase := .closed }
  else if mask.readable then { s with phase := .reading mask.writable mask.hangup }
  else s.checkWritable mask.writable mask.hangup

/-- One step of the worker on this connection. An answer that was not asked for does not occur. -/
def step (s : Session σ) : Event σ → Session σ
  | .ready mask => if s.phase = .idle then s.dispatch mask else s
  | .read r =>
    match s.phase with
    | .reading writable hangup => afterRead writable hangup (readFromRound exec config r s)
    | _ => s
  | .write r =>
    match s.phase with
    | .writing hangup => afterWrite hangup (writeToRound r s)
    | _ => s
  | .others shared => { s with shared }
  | .stop => if s.phase = .idle then { s with phase := .closed } else s

/-- A run from a connection as it is installed. -/
def run (shared : σ) (events : List (Event σ)) : Session σ :=
  Machine.run (step exec config) (fresh config shared) events

end Session

end VeloxDb.Net
