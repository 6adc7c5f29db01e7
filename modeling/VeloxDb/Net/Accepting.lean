import Mathlib.Algebra.BigOperators.Fin
import Mathlib.Algebra.Order.BigOperators.Group.Finset
import VeloxDb.Common.Machine
import VeloxDb.Common.Weight

/-!
# `net/tcp_server.cpp`: accepting connections

The acceptor and the workers are threads. `accept_ready` compares `connected_clients` with
`server.max_clients` and then puts the socket into the pending queue of a worker; the worker takes
the queue when it gets to it, and only then counts the connections in it. A step of the machine here
is what one thread does between two looks at what the threads share, so a run is an interleaving of
the threads.

The counter is exact: it is the number of connections that the workers hold, apart from those that a
worker is just registering or closing. What it leaves out is the sockets on their way to a worker.
Where there is room for these as well whenever the acceptor admits one more, the limit holds in
every state of the run.
-/

namespace VeloxDb.Net

open Machine

/-! ## Workers -/

/-- What a worker thread is at: between two calls in its loop; in the loop of `install_pending`,
with the rest of the queue; behind `try_emplace`, with the connection in the map and not yet
counted; in `close_connection`, behind the `erase`; in the loop of `close_all_connections`; or at
its end. -/
inductive Task
  | serving
  | installing (queue : List ℕ)
  | registering (fd : ℕ) (queue : List ℕ)
  | closing
  | closingAll (left : ℕ)
  | ended
deriving DecidableEq, Repr

/-- `Worker`, with its pending queue and the keys of `connections_`. -/
structure WorkerState where
  pending : List ℕ := []
  connections : Finset ℕ := ∅
  task : Task := .serving

/-- What a worker thread does next. `register ok` is `register_connection` with this answer. -/
inductive WorkerEvent
  | takePending
  | install
  | register (ok : Bool)
  | close (fd : ℕ)
  | connectionClosed
  | stop
deriving DecidableEq, Repr

namespace WorkerState

/-- `Worker::add_connection`, which the acceptor calls. -/
def addConnection (w : WorkerState) (fd : ℕ) : WorkerState := { w with pending := w.pending ++ [fd] }

/-- A step of a worker, with `connected_clients` before and after it. A worker is only stopped after
the acceptor has ended; a step that is not next leaves everything as it is. -/
def step (acceptorEnded : Bool) (clients : ℕ) (w : WorkerState) (e : WorkerEvent) : ℕ × WorkerState :=
  match e, w.task with
  | .takePending, .serving => (clients, { w with pending := [], task := .installing w.pending })
  | .install, .installing [] => (clients, { w with task := .serving })
  | .install, .installing (fd :: queue) =>
    if fd ∈ w.connections then (clients, { w with task := .installing queue })
    else (clients, { w with
      connections := insert fd w.connections, task := .registering fd queue })
  | .register true, .registering _ queue => (clients + 1, { w with task := .installing queue })
  | .register false, .registering fd queue =>
    (clients, { w with connections := w.connections.erase fd, task := .installing queue })
  | .close fd, .serving =>
    if fd ∈ w.connections then
      (clients, { w with connections := w.connections.erase fd, task := .closing })
    else (clients, w)
  | .connectionClosed, .closing => (clients - 1, { w with task := .serving })
  | .stop, .serving =>
    if acceptorEnded then (clients, { w with task := .closingAll w.connections.card })
    else (clients, w)
  | .connectionClosed, .closingAll (left + 1) => (clients - 1, { w with task := .closingAll left })
  | .connectionClosed, .closingAll 0 => (clients, { w with connections := ∅, task := .ended })
  | _, _ => (clients, w)

/-- The connections that a worker holds. -/
def held (w : WorkerState) : ℕ := w.connections.card

/-- The sockets that wait for a worker to install them. -/
def queued (w : WorkerState) : ℕ :=
  w.pending.length + match w.task with
    | .installing queue | .registering _ queue => queue.length
    | _ => 0

/-- A connection that is held and not yet counted. -/
def uncounted (w : WorkerState) : ℕ :=
  match w.task with
  | .registering _ _ => 1
  | _ => 0

/-- What the worker has contributed to `connected_clients`. -/
def counted (w : WorkerState) : ℕ :=
  match w.task with
  | .serving | .installing _ => w.held
  | .registering _ _ => w.held - 1
  | .closing => w.held + 1
  | .closingAll left => left
  | .ended => 0

/-- The worker has not been stopped. -/
def Running (w : WorkerState) : Prop :=
  match w.task with
  | .closingAll _ | .ended => False
  | _ => True

/-- A connection that is being registered is in the map. -/
def Valid (w : WorkerState) : Prop :=
  match w.task with
  | .registering fd _ => fd ∈ w.connections
  | _ => True

/-- What a step of a worker does to the numbers. -/
structure StepSpec (acceptorEnded : Bool) (clients clients' : ℕ) (w w' : WorkerState) : Prop where
  valid : w'.Valid
  running : acceptorEnded = false → w.Running → w'.Running
  room : w'.held + w'.queued ≤ w.held + w.queued
  counted : w.counted ≤ clients → clients' + w.counted = clients + w'.counted

theorem held_addConnection (w : WorkerState) (fd : ℕ) : (w.addConnection fd).held = w.held := rfl

theorem counted_addConnection (w : WorkerState) (fd : ℕ) :
    (w.addConnection fd).counted = w.counted := rfl

theorem queued_addConnection (w : WorkerState) (fd : ℕ) :
    (w.addConnection fd).queued = w.queued + 1 := by
  simp only [queued, addConnection, List.length_append, List.length_singleton]
  omega

variable {acceptorEnded : Bool} {clients : ℕ} {w : WorkerState}

theorem step_spec (h : w.Valid) (e : WorkerEvent) :
    StepSpec acceptorEnded clients (w.step acceptorEnded clients e).1 w
      (w.step acceptorEnded clients e).2 := by
  have hsame : StepSpec acceptorEnded clients clients w w :=
    ⟨h, fun _ hrunning => hrunning, le_rfl, fun _ => rfl⟩
  unfold step
  split
  · next htask => constructor <;> simp [Valid, Running, held, queued, counted, htask]
  · next htask => constructor <;> simp [Valid, Running, held, queued, counted, htask]
  · next fd queue htask =>
    split_ifs with hmem
    · -- the descriptor is in the map already, and the socket is dropped
      constructor <;> simp [Valid, Running, held, queued, counted, htask]
    · have hcard := Finset.card_insert_of_notMem hmem
      constructor <;> simp [Valid, Running, held, queued, counted, htask, hcard]
      omega
  · next fd queue htask =>
    have hpos : 0 < w.connections.card := Finset.card_pos.mpr ⟨fd, by simpa [Valid, htask] using h⟩
    constructor <;> simp [Valid, Running, held, queued, counted, htask]
    omega
  · next fd queue htask =>
    have hmem : fd ∈ w.connections := by simpa [Valid, htask] using h
    have hcard := Finset.card_erase_of_mem hmem
    constructor <;> simp [Valid, Running, held, queued, counted, htask, hcard]
  · next fd htask =>
    split_ifs with hmem
    · have hcard := Finset.card_erase_add_one hmem
      constructor <;> simp [Valid, Running, held, queued, counted, htask]
      · omega
      · omega
    · exact hsame
  · next htask =>
    constructor <;> simp [Valid, Running, held, queued, counted, htask]
    omega
  · next htask =>
    split_ifs with hended
    · constructor <;> simp [Valid, Running, held, queued, counted, htask, hended]
    · exact hsame
  · next left htask =>
    constructor <;> simp [Valid, Running, held, queued, counted, htask]
    omega
  · next htask => constructor <;> simp [Valid, Running, held, queued, counted, htask]
  · exact hsame

end WorkerState

/-! ## The acceptor and its workers -/

/-- Where the acceptor is: in `accept`, behind the test with a socket for a worker, or out of its
loop. -/
inductive Acceptor
  | listening
  | admitted (fd : ℕ)
  | ended
deriving DecidableEq, Repr

/-- The threads of a server with `n` workers, and `connected_clients`. -/
structure Gate (n : ℕ) where
  acceptor : Acceptor := .listening
  nextWorker : ℕ := 0
  connectedClients : ℕ := 0
  workers : Fin n → WorkerState := fun _ => {}

/-- What one of the threads does next: `accept` returns a socket that `set_nonblocking` is called
on, with this answer, and the limit is tested; `add_connection`; the accept loop ends; or a worker
goes on. -/
inductive GateEvent (n : ℕ)
  | accept (fd : ℕ) (nonblocking : Bool)
  | addConnection
  | endAccept
  | worker (i : Fin n) (e : WorkerEvent)
deriving DecidableEq, Repr

namespace Gate

variable {n : ℕ}

/-- A step of one thread. -/
def step (maxClients : ℕ) (s : Gate n) (e : GateEvent n) : Gate n :=
  match e, s.acceptor with
  | .accept fd nonblocking, .listening =>
    if !nonblocking then s
    else if maxClients ≤ s.connectedClients ∨ n = 0 then s
    else { s with acceptor := .admitted fd }
  | .addConnection, .admitted fd =>
    if h : 0 < n then
      let i : Fin n := ⟨s.nextWorker % n, Nat.mod_lt _ h⟩
      { s with
        acceptor := .listening
        nextWorker := (s.nextWorker + 1) % 2 ^ 64
        workers := Function.update s.workers i ((s.workers i).addConnection fd) }
    else s
  | .endAccept, .listening => { s with acceptor := .ended }
  | .worker i e, acceptor =>
    let (connectedClients, w) := (s.workers i).step (acceptor = .ended) s.connectedClients e
    { s with connectedClients, workers := Function.update s.workers i w }
  | _, _ => s

/-- The connections that the workers hold. -/
def held (s : Gate n) : ℕ := ∑ i, (s.workers i).held

/-- The sockets that have passed the test and are in no map yet. -/
def waiting (s : Gate n) : ℕ :=
  ∑ i, (s.workers i).queued + match s.acceptor with
    | .admitted _ => 1
    | _ => 0

/-- The sockets that have passed the test and are not yet counted. -/
def onTheWay (s : Gate n) : ℕ := s.waiting + ∑ i, (s.workers i).uncounted

/-- When the acceptor admits a socket, there is room for those on their way as well. -/
def RoomBehind (maxClients : ℕ) (s : Gate n) : GateEvent n → Prop
  | .accept _ true => s.acceptor = .listening → s.connectedClients < maxClients →
      s.connectedClients + s.onTheWay < maxClients
  | _ => True

instance (maxClients : ℕ) (s : Gate n) : (e : GateEvent n) → Decidable (RoomBehind maxClients s e)
  | .accept _ true => inferInstanceAs (Decidable (_ → _ → _))
  | .accept _ false | .addConnection | .endAccept | .worker _ _ => inferInstanceAs (Decidable True)

/-- The counter is what the workers have contributed to it. -/
structure Exact (s : Gate n) : Prop where
  valid : ∀ i, (s.workers i).Valid
  counted : s.connectedClients = ∑ i, (s.workers i).counted

/-- Workers stop after the acceptor, and the sockets on their way would fit. -/
structure Roomy (maxClients : ℕ) (s : Gate n) : Prop where
  running : s.acceptor ≠ .ended → ∀ i, (s.workers i).Running
  room : s.held + s.waiting ≤ maxClients

structure Inv (maxClients : ℕ) (s : Gate n) : Prop extends Exact s, Roomy maxClients s

variable {maxClients : ℕ} {s : Gate n}

theorem exact_init : Exact ({} : Gate n) where
  valid _ := trivial
  counted := by simp [WorkerState.counted, WorkerState.held]

theorem inv_init (maxClients : ℕ) : Inv maxClients ({} : Gate n) where
  toExact := exact_init
  running _ _ := trivial
  room := by simp [held, waiting, WorkerState.held, WorkerState.queued]

/-! ## The counter -/

/-- A worker changes, and the counter with it. -/
theorem Exact.change {s' : Gate n} (h : Exact s) (i : Fin n) (w : WorkerState)
    (hworkers : s'.workers = Function.update s.workers i w) (hvalid : w.Valid)
    (hcounted : s'.connectedClients + (s.workers i).counted = s.connectedClients + w.counted) :
    Exact s' where
  valid := by
    rw [hworkers]
    exact (Function.forall_update_iff s.workers fun _ w => w.Valid).mpr ⟨hvalid, fun j _ => h.valid j⟩
  counted := by
    have hsum := Keyed.sum_apply_update WorkerState.counted s.workers i w
    have hbefore := h.counted
    rw [hworkers]
    omega

/-- What a worker has contributed is in the counter. -/
theorem Exact.counted_le (h : Exact s) (i : Fin n) : (s.workers i).counted ≤ s.connectedClients := by
  rw [h.counted]
  exact Finset.single_le_sum_of_canonicallyOrdered (f := fun j => (s.workers j).counted)
    (Finset.mem_univ i)

/-- Every step of every thread keeps the counter exact. -/
theorem Exact.step (h : Exact s) (e : GateEvent n) : Exact (s.step maxClients e) := by
  unfold Gate.step
  split
  · split_ifs
    · exact h
    · exact h
    · exact ⟨h.valid, h.counted⟩
  · next fd hacceptor =>
    split_ifs with hn
    · exact h.change _ _ rfl (h.valid ⟨_, Nat.mod_lt _ hn⟩) rfl
    · exact h
  · exact ⟨h.valid, h.counted⟩
  · next acceptor i e =>
    have hspec : WorkerState.StepSpec (s.acceptor = .ended) s.connectedClients _ (s.workers i) _ :=
      WorkerState.step_spec (h.valid i) e
    exact h.change i ((s.workers i).step (s.acceptor = .ended) s.connectedClients e).2 rfl hspec.valid
      (hspec.counted (h.counted_le i))
  · exact h

/-! ## The limit -/

/-- Before the acceptor has ended, the counter leaves out only what is being registered. -/
theorem Inv.held_le (h : Inv maxClients s) (hacceptor : s.acceptor ≠ .ended) :
    s.held ≤ s.connectedClients + ∑ i, (s.workers i).uncounted := by
  rw [h.counted, ← Finset.sum_add_distrib]
  refine Finset.sum_le_sum fun i _ => ?_
  have hrunning := h.running hacceptor i
  rw [WorkerState.Running] at hrunning
  rw [WorkerState.counted, WorkerState.uncounted]
  cases htask : (s.workers i).task <;> simp only [htask] at hrunning ⊢ <;> omega

/-- A socket is admitted. -/
theorem Inv.admit (h : Inv maxClients s) (hacceptor : s.acceptor = .listening) (fd : ℕ)
    (hroom : s.connectedClients + s.onTheWay < maxClients) :
    Roomy maxClients { s with acceptor := .admitted fd } := by
  refine ⟨fun _ => h.running (by simp [hacceptor]), ?_⟩
  have hheld := h.held_le (by simp [hacceptor])
  simp only [onTheWay, waiting, hacceptor] at hroom
  simp only [held, waiting] at hheld ⊢
  omega

/-- The socket that was admitted gets into the queue of a worker. -/
theorem Inv.enqueue (h : Inv maxClients s) {fd : ℕ} (hacceptor : s.acceptor = .admitted fd)
    (i : Fin n) {s' : Gate n} (hlistening : s'.acceptor = .listening)
    (hworkers : s'.workers = Function.update s.workers i ((s.workers i).addConnection fd)) :
    Roomy maxClients s' := by
  refine ⟨fun _ => ?_, ?_⟩
  · have hrunning := h.running (by simp [hacceptor])
    rw [hworkers]
    exact (Function.forall_update_iff s.workers fun _ w => w.Running).mpr
      ⟨hrunning i, fun j _ => hrunning j⟩
  · have hheld := Keyed.sum_apply_update WorkerState.held s.workers i ((s.workers i).addConnection fd)
    have hqueued :=
      Keyed.sum_apply_update WorkerState.queued s.workers i ((s.workers i).addConnection fd)
    have hbefore := h.room
    rw [WorkerState.held_addConnection] at hheld
    rw [WorkerState.queued_addConnection] at hqueued
    simp only [held, waiting, hacceptor, hlistening, hworkers] at hbefore ⊢
    omega

/-- A worker goes on. -/
theorem Inv.worker (h : Inv maxClients s) (i : Fin n) {connectedClients : ℕ} {w : WorkerState}
    (hspec : WorkerState.StepSpec (s.acceptor = .ended) s.connectedClients connectedClients
      (s.workers i) w) {s' : Gate n} (hacceptor : s'.acceptor = s.acceptor)
    (hworkers : s'.workers = Function.update s.workers i w) :
    Roomy maxClients s' := by
  refine ⟨fun hopen => ?_, ?_⟩
  · rw [hacceptor] at hopen
    rw [hworkers]
    exact (Function.forall_update_iff s.workers fun _ w => w.Running).mpr
      ⟨hspec.running (by simpa using hopen) (h.running hopen i), fun j _ => h.running hopen j⟩
  · have hheld := Keyed.sum_apply_update WorkerState.held s.workers i w
    have hqueued := Keyed.sum_apply_update WorkerState.queued s.workers i w
    have hbefore := h.room
    have hspecRoom := hspec.room
    simp only [held, waiting, hacceptor, hworkers] at hbefore ⊢
    omega

/-- Every step keeps room for the sockets on their way, if the acceptor admits one only when there is
room for it behind them. -/
theorem Inv.step (h : Inv maxClients s) {e : GateEvent n} (hroom : RoomBehind maxClients s e) :
    Inv maxClients (s.step maxClients e) := by
  suffices hroomy : Roomy maxClients (s.step maxClients e) from ⟨h.toExact.step e, hroomy⟩
  unfold Gate.step
  split
  · next fd nonblocking hacceptor =>
    cases nonblocking with
    | false => exact h.toRoomy
    | true =>
      simp only [Bool.not_true, Bool.false_eq_true, if_false]
      split_ifs with hfull
      · exact h.toRoomy
      · exact h.admit hacceptor fd (hroom hacceptor (by omega))
  · next fd hacceptor =>
    split_ifs with hn
    · exact h.enqueue hacceptor ⟨s.nextWorker % n, Nat.mod_lt _ hn⟩ rfl rfl
    · exact h.toRoomy
  · next hacceptor =>
    refine ⟨fun hended => absurd rfl hended, ?_⟩
    simpa [held, waiting, hacceptor] using h.room
  · next acceptor i e => exact h.worker i (WorkerState.step_spec (h.valid i) e) rfl rfl
  · exact h.toRoomy

/-- **The client limit** holds in every state of a run in which the acceptor only admits a socket
when there is room for those on their way as well. -/
theorem client_limit {events : List (GateEvent n)}
    (h : AllSteps (step maxClients) (RoomBehind maxClients) ({} : Gate n) events) :
    ∀ before, before <+: events → (run (step maxClients) ({} : Gate n) before).held ≤ maxClients := by
  intro before hbefore
  have hinv : Inv maxClients (run (step maxClients) ({} : Gate n) before) :=
    run_invariant (fun s e hs hroom => hs.step hroom) (inv_init maxClients) (h.of_prefix hbefore)
  exact (Nat.le_add_right _ _).trans hinv.room

/-- The socket is accepted and gets to a worker. -/
def admission (fd : ℕ) : List (GateEvent n) := [.accept fd true, .addConnection]

/-- The worker takes its queue and installs `sockets` connections. -/
def installation (i : Fin n) (sockets : ℕ) : List (GateEvent n) :=
  .worker i .takePending ::
    (List.replicate sockets [.worker i .install, .worker i (.register true)]).flatten
      ++ [.worker i .install]

/-- The second client comes when the first has been installed, and is turned away. -/
theorem client_limit_one_by_one :
    (run (step 1) ({} : Gate 1)
      (admission 5 ++ installation 0 1 ++ admission 6 ++ installation 0 1)).held ≤ 1 := by
  refine client_limit ?_ _ (List.prefix_refl _)
  refine ⟨?_, ?_, ?_, ?_, ?_, ?_, ?_, ?_, ?_, ?_, ?_, ?_, trivial⟩ <;> decide

/-- Two clients come before the worker looks into its queue: it holds two connections at a limit of
one. -/
theorem client_limit_exceeded :
    (run (step 1) ({} : Gate 1) (admission 5 ++ admission 6 ++ installation 0 2)).held = 2 := by
  decide

end Gate

end VeloxDb.Net
