import VeloxDb.Net.Accepting

/-!
# `net/tcp_server.cpp`: handing a connection over to a worker

In `Gate` a step is what a thread does between two looks at the queues and the counter. Here the
steps are finer. The kernel keeps a table of open descriptors, and `accept` returns a number that is
in no use. `add_connection` first puts the descriptor into the queue and then writes a byte into the
wake-up pipe; a worker empties the pipe, 64 bytes at a time, before it takes the queue. To close a
descriptor and to erase it from the map are two steps, between which the kernel may give the number
away again.

Whatever the interleaving, every open descriptor has one holder (`Owned`), and a queue with
something in it is one that its worker is going to look at (`Noticed`). So what the acceptor hands
over is installed by the next pass of the worker. The fine machine refines the coarse one
(`toGate_step`), which makes `connected_clients` exact here as well.
-/

namespace VeloxDb.Net

open Machine

/-! ## Descriptors -/

/-- The client descriptors that are open, and how often one was closed that was not. -/
structure Descriptors where
  opened : Finset ℕ := ∅
  strayCloses : ℕ := 0

namespace Descriptors

variable (d : Descriptors) (fd : ℕ)

/-- The descriptor is open. -/
def add : Descriptors := { d with opened := insert fd d.opened }

/-- `close(2)`. -/
def close : Descriptors :=
  if fd ∈ d.opened then { d with opened := d.opened.erase fd }
  else { d with strayCloses := d.strayCloses + 1 }

/-- What is left open when a list has been closed. -/
theorem opened_foldl_close (l : List ℕ) (d : Descriptors) :
    (l.foldl close d).opened = d.opened \ l.toFinset := by
  induction l generalizing d with
  | nil => simp
  | cons fd l ih =>
    have hclose : (d.close fd).opened = d.opened.erase fd := by
      rw [close]
      split_ifs with hopen
      · rfl
      · exact (Finset.erase_eq_of_notMem hopen).symm
    rw [List.foldl_cons, ih, hclose, List.toFinset_cons, Finset.sdiff_insert, Finset.erase_sdiff_comm]

end Descriptors

/-! ## Workers -/

/-- What a worker thread is at: in `epoll_wait`, or with a client; in the loop of `drain_wakeup`, or
behind it; in the loop of `install_pending`, with the rest of the queue; there with a descriptor that
is in the map already, with one that is to be registered, with one that could not be, and then behind
the `close`; in `close_connection` before and behind the `close`, and behind the `erase`; in the loop
of `close_all_connections` with what is left to be closed, before and behind a `connection_closed`;
or at its end. -/
inductive ThreadTask
  | polling
  | draining
  | drained
  | installing (queue : List ℕ)
  | duplicated (fd : ℕ) (queue : List ℕ)
  | registering (fd : ℕ) (queue : List ℕ)
  | dropping (fd : ℕ) (queue : List ℕ)
  | forgetting (fd : ℕ) (queue : List ℕ)
  | closing (fd : ℕ)
  | erasing (fd : ℕ)
  | uncounting
  | closingAll (left : Finset ℕ)
  | uncountingAll (left : Finset ℕ)
  | ended

/-- `Worker`: its queue, the bytes in its pipe, the keys of `connections_`, and the thread. -/
structure WorkerThread where
  pending : List ℕ := []
  pipe : ℕ := 0
  stopping : Bool := false
  connections : Finset ℕ := ∅
  task : ThreadTask := .polling

/-- What a worker thread does next. `register ok` is `register_connection` with this answer. -/
inductive ThreadEvent
  | wakeup
  | readPipe
  | takePending
  | install
  | register (ok : Bool)
  | closeConnection (fd : ℕ)
  | closeFd
  | erase
  | connectionClosed
  | leaveLoop
  | closeNext (fd : ℕ)
  | clear
deriving DecidableEq, Repr

namespace WorkerThread

/-- `push_back` in `add_connection`. -/
def push (w : WorkerThread) (fd : ℕ) : WorkerThread := { w with pending := w.pending ++ [fd] }

/-- `wake`: the write fails only while there is something in the pipe. -/
def wake (w : WorkerThread) (written : Bool) : Option WorkerThread :=
  if written then some { w with pipe := w.pipe + 1 }
  else if w.pipe ≠ 0 then some w
  else none

/-- A step of a worker, with the descriptors and `connected_clients`. One that is not next leaves
everything as it is. -/
def step (d : Descriptors) (clients : ℕ) (w : WorkerThread) (e : ThreadEvent) :
    Descriptors × ℕ × WorkerThread :=
  match e, w.task with
  | .wakeup, .polling =>
    if w.pipe = 0 then (d, clients, w) else (d, clients, { w with task := .draining })
  | .readPipe, .draining =>
    if w.pipe = 0 then (d, clients, { w with task := .drained })
    else (d, clients, { w with pipe := w.pipe - 64 })
  | .takePending, .drained =>
    (d, clients, { w with pending := [], task := .installing w.pending })
  | .install, .installing [] => (d, clients, { w with task := .polling })
  | .install, .installing (fd :: queue) =>
    if fd ∈ w.connections then (d, clients, { w with task := .duplicated fd queue })
    else (d, clients, { w with
      connections := insert fd w.connections, task := .registering fd queue })
  | .closeFd, .duplicated fd queue => (d.close fd, clients, { w with task := .installing queue })
  | .register true, .registering _ queue =>
    (d, clients + 1, { w with task := .installing queue })
  | .register false, .registering fd queue => (d, clients, { w with task := .dropping fd queue })
  | .closeFd, .dropping fd queue => (d.close fd, clients, { w with task := .forgetting fd queue })
  | .erase, .forgetting fd queue =>
    (d, clients, { w with connections := w.connections.erase fd, task := .installing queue })
  | .closeConnection fd, .polling =>
    if fd ∈ w.connections then (d, clients, { w with task := .closing fd }) else (d, clients, w)
  | .closeFd, .closing fd => (d.close fd, clients, { w with task := .erasing fd })
  | .erase, .erasing fd =>
    (d, clients, { w with connections := w.connections.erase fd, task := .uncounting })
  | .connectionClosed, .uncounting => (d, clients - 1, { w with task := .polling })
  | .leaveLoop, .polling =>
    if w.stopping then (d, clients, { w with task := .closingAll w.connections }) else (d, clients, w)
  | .closeNext fd, .closingAll left =>
    if fd ∈ left then (d.close fd, clients, { w with task := .uncountingAll (left.erase fd) })
    else (d, clients, w)
  | .connectionClosed, .uncountingAll left =>
    (d, clients - 1, { w with task := .closingAll left })
  | .clear, .closingAll left =>
    if left = ∅ then (d, clients, { w with connections := ∅, task := .ended }) else (d, clients, w)
  | _, _ => (d, clients, w)

end WorkerThread

/-! ## The acceptor and its workers -/

/-- What the acceptor is at in `accept_ready`: in `accept`; behind it; with a descriptor that it is
going to close; with one for a worker; in `add_connection` behind the `push_back`; or out of its loop.
-/
inductive AcceptTask (n : ℕ)
  | listening
  | accepted (fd : ℕ)
  | refusing (fd : ℕ)
  | admitted (fd : ℕ)
  | waking (i : Fin n)
  | ended
deriving DecidableEq, Repr

/-- The acceptor and the workers, with the descriptors they hand over. -/
structure Handover (n : ℕ) where
  descriptors : Descriptors := {}
  acceptor : AcceptTask n := .listening
  nextWorker : ℕ := 0
  connectedClients : ℕ := 0
  workers : Fin n → WorkerThread := fun _ => {}

/-- What one of the threads does next. `stopWorker` and `wakeWorker` are the two steps of
`Worker::stop`, which the thread of the acceptor calls when its loop has ended. -/
inductive HandoverEvent (n : ℕ)
  | accept (fd : ℕ)
  | check (nonblocking : Bool)
  | refuse
  | push
  | wake (written : Bool)
  | endAccept
  | stopWorker (i : Fin n)
  | wakeWorker (i : Fin n) (written : Bool)
  | worker (i : Fin n) (e : ThreadEvent)
deriving DecidableEq, Repr

namespace Handover

variable {n : ℕ}

/-- One worker changes. -/
def setWorker (s : Handover n) (i : Fin n) (w : WorkerThread) : Handover n :=
  { s with workers := Function.update s.workers i w }

/-- A step of one thread. -/
def step (maxClients : ℕ) (s : Handover n) (e : HandoverEvent n) : Handover n :=
  match e, s.acceptor with
  | .accept fd, .listening =>
    if fd ∈ s.descriptors.opened then s
    else { s with descriptors := s.descriptors.add fd, acceptor := .accepted fd }
  | .check nonblocking, .accepted fd =>
    if nonblocking = false ∨ maxClients ≤ s.connectedClients ∨ n = 0 then
      { s with acceptor := .refusing fd }
    else { s with acceptor := .admitted fd }
  | .refuse, .refusing fd =>
    { s with descriptors := s.descriptors.close fd, acceptor := .listening }
  | .push, .admitted fd =>
    if h : 0 < n then
      let i : Fin n := ⟨s.nextWorker % n, Nat.mod_lt _ h⟩
      { s.setWorker i ((s.workers i).push fd) with acceptor := .waking i }
    else s
  | .wake written, .waking i =>
    match (s.workers i).wake written with
    | none => s
    | some w =>
      { s.setWorker i w with acceptor := .listening, nextWorker := (s.nextWorker + 1) % 2 ^ 64 }
  | .endAccept, .listening => { s with acceptor := .ended }
  | .stopWorker i, .ended => s.setWorker i { s.workers i with stopping := true }
  | .wakeWorker i written, .ended =>
    match (s.workers i).wake written with
    | none => s
    | some w => s.setWorker i w
  | .worker i e, _ =>
    let (descriptors, connectedClients, w) :=
      (s.workers i).step s.descriptors s.connectedClients e
    { s.setWorker i w with descriptors, connectedClients }
  | _, _ => s

end Handover

/-! ## Who holds a descriptor -/

/-- One where the set has the descriptor, zero elsewhere. -/
def tally (set : Finset ℕ) (fd : ℕ) : ℕ := if fd ∈ set then 1 else 0

/-- A set has a descriptor once at most. -/
theorem tally_le_one (set : Finset ℕ) (fd : ℕ) : tally set fd ≤ 1 := by
  rw [tally]
  split_ifs <;> omega

/-- A new descriptor is counted. -/
theorem tally_insert {set : Finset ℕ} {x : ℕ} (hx : x ∉ set) (fd : ℕ) :
    tally (insert x set) fd = tally set fd + [x].count fd := by
  by_cases h : fd = x
  · subst h
    simp [tally, hx]
  · simp [tally, h, Ne.symm h]

/-- A descriptor that goes is no longer counted. -/
theorem tally_erase {set : Finset ℕ} {x : ℕ} (hx : x ∈ set) (fd : ℕ) :
    tally (set.erase x) fd + [x].count fd = tally set fd := by
  by_cases h : fd = x
  · subst h
    simp [tally, hx]
  · simp [tally, h, Ne.symm h]

/-- The first of a list and the rest. -/
theorem count_cons_eq (x : ℕ) (l : List ℕ) (fd : ℕ) :
    (x :: l).count fd = l.count fd + [x].count fd := by
  rw [← List.singleton_append, List.count_append, Nat.add_comm]

namespace WorkerThread

/-- The descriptors on their way into the map. -/
def onTheWay (w : WorkerThread) : List ℕ :=
  w.pending ++ match w.task with
    | .installing queue | .registering _ queue | .dropping _ queue | .forgetting _ queue => queue
    | .duplicated fd queue => fd :: queue
    | _ => []

/-- The descriptors in the map that have not been closed. -/
def live (w : WorkerThread) : Finset ℕ :=
  match w.task with
  | .forgetting fd _ | .erasing fd => w.connections.erase fd
  | .closingAll left | .uncountingAll left => left
  | .ended => ∅
  | _ => w.connections

/-- How often a worker holds a descriptor. -/
def holds (w : WorkerThread) (fd : ℕ) : ℕ := w.onTheWay.count fd + tally w.live fd

/-- The descriptor that a worker is about is in its map. -/
def Sound (w : WorkerThread) : Prop :=
  match w.task with
  | .registering fd _ | .dropping fd _ | .forgetting fd _ | .closing fd | .erasing fd =>
    fd ∈ w.connections
  | .duplicated _ _ => False
  | _ => True

/-- A worker closes what it holds, and nothing else. -/
structure StepSpec (d d' : Descriptors) (w w' : WorkerThread) : Prop where
  sound : w'.Sound
  stray : d'.strayCloses = d.strayCloses
  held : ∀ fd, tally d'.opened fd + w.holds fd = tally d.opened fd + w'.holds fd

variable {d : Descriptors} {w w' : WorkerThread}

/-- The descriptors stay where they are. -/
theorem StepSpec.of_holds (hsound : w'.Sound) (hholds : ∀ fd, w'.holds fd = w.holds fd) :
    StepSpec d d w w' := ⟨hsound, rfl, fun fd => by rw [hholds]⟩

/-- A descriptor that the worker holds is closed. -/
theorem StepSpec.of_close {x : ℕ} (hle : ∀ fd, w.holds fd ≤ tally d.opened fd) (hsound : w'.Sound)
    (hholds : ∀ fd, w'.holds fd + [x].count fd = w.holds fd) : StepSpec d (d.close x) w w' := by
  have hopen : x ∈ d.opened := by
    by_contra hx
    have hone := hholds x
    have hzero := hle x
    simp only [tally, hx, if_false, List.count_singleton_self] at hone hzero
    omega
  refine ⟨hsound, ?_, fun fd => ?_⟩
  · rw [Descriptors.close, if_pos hopen]
  · have herase := tally_erase hopen fd
    have hx := hholds fd
    rw [Descriptors.close, if_pos hopen]
    show tally (d.opened.erase x) fd + w.holds fd = tally d.opened fd + w'.holds fd
    omega

/-- **What a step of a worker does to the descriptors it holds.** -/
theorem step_spec (clients : ℕ) (hsound : w.Sound) (hle : ∀ fd, w.holds fd ≤ tally d.opened fd)
    (e : ThreadEvent) : StepSpec d (w.step d clients e).1 w (w.step d clients e).2.2 := by
  have hsame : StepSpec d d w w := .of_holds hsound fun _ => rfl
  unfold step
  split
  · next htask =>
    split_ifs
    · exact hsame
    · exact .of_holds trivial fun fd => by simp [holds, onTheWay, live, htask]
  · next htask =>
    split_ifs
    · exact .of_holds trivial fun fd => by simp [holds, onTheWay, live, htask]
    · exact .of_holds (by simp [Sound, htask]) fun fd => by simp [holds, onTheWay, live, htask]
  · next htask => exact .of_holds trivial fun fd => by simp [holds, onTheWay, live, htask]
  · next htask => exact .of_holds trivial fun fd => by simp [holds, onTheWay, live, htask]
  · next x queue htask =>
    split_ifs with hmem
    · -- a descriptor in the queue is not in the map as well
      have hx := hle x
      have hone := tally_le_one d.opened x
      simp only [holds, onTheWay, live, htask, List.count_append, List.count_cons_self, tally, hmem,
        if_true] at hx hone
      omega
    · refine .of_holds (by simp [Sound]) fun fd => ?_
      have hinsert := tally_insert hmem fd
      simp only [holds, onTheWay, live, htask, List.count_append, count_cons_eq x queue]
      omega
  · next x queue htask => simp [Sound, htask] at hsound
  · next x queue htask => exact .of_holds trivial fun fd => by simp [holds, onTheWay, live, htask]
  · next x queue htask =>
    exact .of_holds (by simpa [Sound, htask] using hsound) fun fd => by
      simp [holds, onTheWay, live, htask]
  · next x queue htask =>
    have hmem : x ∈ w.connections := by simpa [Sound, htask] using hsound
    refine .of_close hle hmem fun fd => ?_
    have herase := tally_erase hmem fd
    simp only [holds, onTheWay, live, htask]
    omega
  · next x queue htask => exact .of_holds trivial fun fd => by simp [holds, onTheWay, live, htask]
  · next x htask =>
    split_ifs with hmem
    · exact .of_holds hmem fun fd => by simp [holds, onTheWay, live, htask]
    · exact hsame
  · next x htask =>
    have hmem : x ∈ w.connections := by simpa [Sound, htask] using hsound
    refine .of_close hle hmem fun fd => ?_
    have herase := tally_erase hmem fd
    simp only [holds, onTheWay, live, htask]
    omega
  · next x htask => exact .of_holds trivial fun fd => by simp [holds, onTheWay, live, htask]
  · next htask => exact .of_holds trivial fun fd => by simp [holds, onTheWay, live, htask]
  · next htask =>
    split_ifs
    · exact .of_holds trivial fun fd => by simp [holds, onTheWay, live, htask]
    · exact hsame
  · next x left htask =>
    split_ifs with hmem
    · refine .of_close hle trivial fun fd => ?_
      have herase := tally_erase hmem fd
      simp only [holds, onTheWay, live, htask]
      omega
    · exact hsame
  · next left htask => exact .of_holds trivial fun fd => by simp [holds, onTheWay, live, htask]
  · next left htask =>
    split_ifs with hleft
    · exact .of_holds trivial fun fd => by simp [holds, onTheWay, live, htask, hleft]
    · exact hsame
  · exact hsame

/-- A worker holds what is queued for it. -/
theorem holds_push (w : WorkerThread) (x fd : ℕ) :
    (w.push x).holds fd = w.holds fd + [x].count fd := by
  simp only [holds, onTheWay, push, live, List.count_append]
  omega

/-- A wake-up leaves a byte in the pipe. -/
theorem wake_eq {written : Bool} (h : w.wake written = some w') :
    ∃ pipe, pipe ≠ 0 ∧ w' = { w with pipe } := by
  rw [wake] at h
  split_ifs at h with hwritten hpipe
  · exact ⟨w.pipe + 1, Nat.succ_ne_zero _, (Option.some.inj h).symm⟩
  · exact ⟨w.pipe, hpipe, (Option.some.inj h).symm⟩

end WorkerThread

/-- The descriptor that the acceptor holds. -/
def AcceptTask.holds {n : ℕ} (task : AcceptTask n) (fd : ℕ) : ℕ :=
  match task with
  | .accepted x | .refusing x | .admitted x => [x].count fd
  | _ => 0

namespace Handover

variable {n maxClients : ℕ} {s : Handover n}

/-- How many hold a descriptor. -/
def holders (s : Handover n) (fd : ℕ) : ℕ := s.acceptor.holds fd + ∑ i, (s.workers i).holds fd

/-- Every descriptor that is open has one holder, others have none, and none was closed twice. -/
structure Owned (s : Handover n) : Prop where
  sound : ∀ i, (s.workers i).Sound
  stray : s.descriptors.strayCloses = 0
  held : ∀ fd, s.holders fd = tally s.descriptors.opened fd

/-- It holds at the start. -/
theorem owned_init : Owned ({} : Handover n) where
  sound _ := trivial
  stray := rfl
  held fd := by simp [holders, AcceptTask.holds, WorkerThread.holds, WorkerThread.onTheWay,
    WorkerThread.live, tally]

variable {s' : Handover n}

/-- What is needed of a change to one worker. -/
theorem Owned.change (h : Owned s) (i : Fin n) (w : WorkerThread)
    (hworkers : s'.workers = Function.update s.workers i w) (hsound : w.Sound)
    (hstray : s'.descriptors.strayCloses = s.descriptors.strayCloses)
    (hheld : ∀ fd, s'.acceptor.holds fd + w.holds fd + tally s.descriptors.opened fd
      = s.acceptor.holds fd + (s.workers i).holds fd + tally s'.descriptors.opened fd) : Owned s' where
  sound := by
    rw [hworkers]
    exact (Function.forall_update_iff s.workers fun _ w => w.Sound).mpr ⟨hsound, fun j _ => h.sound j⟩
  stray := hstray.trans h.stray
  held fd := by
    have hsum := Keyed.sum_apply_update (WorkerThread.holds · fd) s.workers i w
    have hbefore := h.held fd
    have hchange := hheld fd
    simp only [holders, hworkers] at hbefore ⊢
    omega

/-- What is needed of a change to the acceptor alone. -/
theorem Owned.changeAcceptor (h : Owned s) (hworkers : s'.workers = s.workers)
    (hstray : s'.descriptors.strayCloses = s.descriptors.strayCloses)
    (hheld : ∀ fd, s'.acceptor.holds fd + tally s.descriptors.opened fd
      = s.acceptor.holds fd + tally s'.descriptors.opened fd) : Owned s' where
  sound := hworkers ▸ h.sound
  stray := hstray.trans h.stray
  held fd := by
    have hbefore := h.held fd
    have hchange := hheld fd
    simp only [holders, hworkers] at hbefore ⊢
    omega

/-- A worker holds open descriptors, each once. -/
theorem Owned.holds_le (h : Owned s) (i : Fin n) (fd : ℕ) :
    (s.workers i).holds fd ≤ tally s.descriptors.opened fd := by
  have hsingle : (s.workers i).holds fd ≤ ∑ j, (s.workers j).holds fd :=
    Finset.single_le_sum_of_canonicallyOrdered (f := fun j => (s.workers j).holds fd)
      (Finset.mem_univ i)
  have hheld := h.held fd
  rw [holders] at hheld
  omega

/-- **Every event keeps one holder for each open descriptor**: what one thread gives away, another one
takes or it is closed. -/
theorem Owned.step (h : Owned s) (e : HandoverEvent n) : Owned (s.step maxClients e) := by
  unfold Handover.step
  split
  · next fd hacceptor =>
    split_ifs with hopen
    · exact h
    · refine h.changeAcceptor rfl rfl fun f => ?_
      have hinsert := tally_insert hopen f
      simp only [hacceptor, AcceptTask.holds, Descriptors.add]
      omega
  · next nonblocking fd hacceptor =>
    split_ifs
    · exact h.changeAcceptor rfl rfl fun f => by simp [hacceptor, AcceptTask.holds]
    · exact h.changeAcceptor rfl rfl fun f => by simp [hacceptor, AcceptTask.holds]
  · next fd hacceptor =>
    have hopen : fd ∈ s.descriptors.opened := by
      by_contra hnot
      have hheld := h.held fd
      simp only [holders, hacceptor, AcceptTask.holds, tally, hnot, List.count_singleton_self,
        if_false] at hheld
      omega
    rw [Descriptors.close, if_pos hopen]
    refine h.changeAcceptor rfl rfl fun f => ?_
    have herase := tally_erase hopen f
    simp only [hacceptor, AcceptTask.holds]
    omega
  · next fd hacceptor =>
    split_ifs with hn
    · refine h.change _ _ rfl (h.sound ⟨s.nextWorker % n, Nat.mod_lt _ hn⟩) rfl fun f => ?_
      simp only [hacceptor, AcceptTask.holds, WorkerThread.holds_push, setWorker]
      omega
    · exact h
  · next written i hacceptor =>
    split
    · exact h
    · next w hwake =>
      obtain ⟨pipe, -, rfl⟩ := WorkerThread.wake_eq hwake
      refine h.change i _ rfl (h.sound i) rfl fun f => ?_
      simp only [hacceptor, AcceptTask.holds]
      rfl
  · next hacceptor =>
    exact h.changeAcceptor rfl rfl fun f => by simp [hacceptor, AcceptTask.holds]
  · next i hacceptor => exact h.change i _ rfl (h.sound i) rfl fun f => rfl
  · next i written hacceptor =>
    split
    · exact h
    · next w hwake =>
      obtain ⟨pipe, -, rfl⟩ := WorkerThread.wake_eq hwake
      exact h.change i _ rfl (h.sound i) rfl fun f => rfl
  · next acceptor i e =>
    have hspec := WorkerThread.step_spec s.connectedClients (h.sound i) (h.holds_le i) e
    refine h.change i ((s.workers i).step s.descriptors s.connectedClients e).2.2 rfl hspec.sound
      hspec.stray fun f => ?_
    have hheld := hspec.held f
    show s.acceptor.holds f + _ + _ = s.acceptor.holds f + _
      + tally ((s.workers i).step s.descriptors s.connectedClients e).1.opened f
    omega
  · exact h

/-- It holds in every run. -/
theorem Owned.run (h : Owned s) (events : List (HandoverEvent n)) :
    Owned (Machine.run (Handover.step maxClients) s events) :=
  run_invariant (fun _ e hs _ => hs.step e) h (allSteps_true s events)

/-- **One holder.** In every state of every run, each open descriptor has exactly one holder and
each closed one none; no descriptor is closed that is not open, and no worker ever finds a
descriptor from its queue in its map. -/
theorem one_holder (maxClients : ℕ) (events : List (HandoverEvent n)) :
    let s := Machine.run (step maxClients) ({} : Handover n) events
    (∀ fd, s.holders fd = if fd ∈ s.descriptors.opened then 1 else 0) ∧
      s.descriptors.strayCloses = 0 ∧
      ∀ i fd queue, (s.workers i).task ≠ .duplicated fd queue := by
  have h : Owned (Machine.run (step maxClients) ({} : Handover n) events) := owned_init.run events
  refine ⟨h.held, h.stray, fun i fd queue htask => ?_⟩
  have hsound := h.sound i
  rw [WorkerThread.Sound, htask] at hsound
  exact hsound

end Handover

/-! ## Wake-ups -/

namespace WorkerThread

/-- The worker is going to look at its queue, or has been stopped. -/
def Attentive (w : WorkerThread) : Prop :=
  w.pipe ≠ 0 ∨ match w.task with
    | .draining | .drained | .closingAll _ | .uncountingAll _ | .ended => True
    | _ => False

/-- Behind the pipe comes the queue. -/
theorem attentive_step {d : Descriptors} {clients : ℕ} {w : WorkerThread}
    (h : w.pending ≠ [] → w.Attentive) (e : ThreadEvent) :
    (w.step d clients e).2.2.pending ≠ [] → (w.step d clients e).2.2.Attentive := by
  unfold step
  split
  · next htask =>
    split_ifs
    · exact h
    · exact fun _ => .inr trivial
  · next htask =>
    split_ifs
    · exact fun _ => .inr trivial
    · exact fun _ => .inr (by simp [htask])
  · exact fun hpending => absurd rfl hpending
  -- elsewhere the pipe and the queue stay as they are
  all_goals
    next htask =>
    have htaken := h
    simp only [Attentive, htask] at htaken
    try split_ifs
    all_goals first | exact htaken | exact h | exact fun _ => .inr trivial

end WorkerThread

namespace Handover

variable {n maxClients : ℕ} {s : Handover n}

/-- A queue with something in it is about to be announced, or its worker is going to look at it. -/
def Noticed (s : Handover n) : Prop :=
  ∀ i, (s.workers i).pending ≠ [] → s.acceptor = .waking i ∨ (s.workers i).Attentive

/-- It holds at the start. -/
theorem noticed_init : Noticed ({} : Handover n) := fun _ hpending => absurd rfl hpending

/-- What is needed of a change to one worker. -/
theorem Noticed.change {s' : Handover n} (h : Noticed s) (i : Fin n) (w : WorkerThread)
    (hworkers : s'.workers = Function.update s.workers i w)
    (hself : w.pending ≠ [] → s'.acceptor = .waking i ∨ w.Attentive)
    (hothers : ∀ j, j ≠ i → s.acceptor = .waking j → s'.acceptor = .waking j) : Noticed s' := by
  intro j
  rw [hworkers]
  by_cases hj : j = i
  · subst hj
    rw [Function.update_self]
    exact hself
  · rw [Function.update_of_ne hj]
    exact fun hpending => (h j hpending).imp_left (hothers j hj)

/-- **No event makes a worker miss its queue**: what enters it is announced, and a worker that drains
its pipe looks at the queue before it polls again. -/
theorem Noticed.step (h : Noticed s) (e : HandoverEvent n) : Noticed (s.step maxClients e) := by
  have hquiet : ∀ {s' : Handover n}, s'.workers = s.workers → (∀ i, s.acceptor ≠ .waking i) →
      Noticed s' := by
    intro s' hworkers hno i
    rw [hworkers]
    exact fun hpending => .inr ((h i hpending).resolve_left (hno i))
  unfold Handover.step
  split
  · next fd hacceptor =>
    split_ifs
    · exact h
    · exact hquiet rfl (by simp [hacceptor])
  · next nonblocking fd hacceptor =>
    split_ifs
    · exact hquiet rfl (by simp [hacceptor])
    · exact hquiet rfl (by simp [hacceptor])
  · next fd hacceptor => exact hquiet rfl (by simp [hacceptor])
  · next fd hacceptor =>
    split_ifs with hn
    · refine h.change _ _ rfl (fun _ => .inl rfl) fun j _ hj => ?_
      rw [hacceptor] at hj
      cases hj
    · exact h
  · next written i hacceptor =>
    split
    · exact h
    · next w hwake =>
      obtain ⟨pipe, hpipe, rfl⟩ := WorkerThread.wake_eq hwake
      refine h.change i _ rfl (fun _ => .inr (.inl hpipe)) fun j hj hwaking => ?_
      rw [hacceptor, AcceptTask.waking.injEq] at hwaking
      exact absurd hwaking.symm hj
  · next hacceptor => exact hquiet rfl (by simp [hacceptor])
  · next i hacceptor => exact h.change i _ rfl (h i) fun j _ hj => hj
  · next i written hacceptor =>
    split
    · exact h
    · next w hwake =>
      obtain ⟨pipe, hpipe, rfl⟩ := WorkerThread.wake_eq hwake
      exact h.change i _ rfl (fun _ => .inr (.inl hpipe)) fun j _ hj => hj
  · next acceptor i e =>
    refine h.change i ((s.workers i).step s.descriptors s.connectedClients e).2.2 rfl ?_ fun j _ hj => hj
    by_cases hwaking : s.acceptor = .waking i
    · exact fun _ => .inl hwaking
    · exact fun hpending => .inr (WorkerThread.attentive_step
        (fun hbefore => (h i hbefore).resolve_left hwaking) e hpending)
  · exact h

/-- It holds in every run. -/
theorem Noticed.run (h : Noticed s) (events : List (HandoverEvent n)) :
    Noticed (Machine.run (Handover.step maxClients) s events) :=
  run_invariant (fun _ e hs _ => hs.step e) h (allSteps_true s events)

end Handover

/-! ## A pass of a worker -/

namespace WorkerThread

/-- A worker with the descriptors and `connected_clients`, and its steps. -/
def solo (r : Descriptors × ℕ × WorkerThread) (e : ThreadEvent) : Descriptors × ℕ × WorkerThread :=
  r.2.2.step r.1 r.2.1 e

/-- What a worker does when it finds its pipe readable: it empties the pipe, takes the queue and
installs what is in it, where `ok` are the answers of `epoll_ctl(EPOLL_CTL_ADD)`. A descriptor that
cannot be registered is closed and forgotten. -/
def pass (w : WorkerThread) (ok : ℕ → Bool) : List ThreadEvent :=
  .wakeup :: List.replicate ((w.pipe + 63) / 64 + 1) .readPipe ++
    .takePending :: (w.pending.flatMap fun fd =>
      if ok fd then [.install, .register true]
      else [.install, .register false, .closeFd, .erase]) ++ [.install]

variable {d : Descriptors} {clients : ℕ} {w : WorkerThread}

/-- A worker that is woken empties its pipe. -/
theorem run_readPipe {k : ℕ} (hk : w.pipe ≤ 64 * k) (htask : w.task = .draining) :
    Machine.run solo (d, clients, w) (List.replicate (k + 1) .readPipe)
      = (d, clients, { w with pipe := 0, task := .drained }) := by
  induction k generalizing w with
  | zero =>
    have hpipe : w.pipe = 0 := by omega
    simp [solo, step, htask, hpipe]
  | succ k ih =>
    rw [List.replicate_succ, run_cons]
    by_cases hpipe : w.pipe = 0
    · -- the loop is left at once, and what is left of the reads does nothing
      have hrest : ∀ m, Machine.run solo (d, clients, { w with task := .drained })
          (List.replicate m .readPipe) = (d, clients, { w with task := .drained }) := by
        intro m
        induction m with
        | zero => rfl
        | succ m hm => exact hm
      simp only [solo, step, htask, hpipe, if_true]
      rw [← hpipe]
      exact hrest _
    · have hstep : solo (d, clients, w) .readPipe = (d, clients, { w with pipe := w.pipe - 64 }) := by
        simp [solo, step, htask, hpipe]
      rw [hstep]
      exact ih (w := { w with pipe := w.pipe - 64 }) (by simp only; omega) htask

/-- A worker installs its whole queue. -/
theorem run_install {queue : List ℕ} (ok : ℕ → Bool) (hnodup : queue.Nodup)
    (hnew : ∀ fd ∈ queue, fd ∉ w.connections) (htask : w.task = .installing queue) :
    Machine.run solo (d, clients, w) ((queue.flatMap fun fd =>
        if ok fd then [.install, .register true]
        else [.install, .register false, .closeFd, .erase]) ++ [.install])
      = ((queue.filter (!ok ·)).foldl Descriptors.close d, clients + (queue.filter ok).length,
        { w with connections := w.connections ∪ (queue.filter ok).toFinset, task := .polling }) := by
  induction queue generalizing w clients d with
  | nil => simp [solo, step, htask]
  | cons fd queue ih =>
    obtain ⟨hfd, hqueue⟩ := List.nodup_cons.mp hnodup
    have hmem := hnew fd List.mem_cons_self
    rw [List.flatMap_cons, List.append_assoc, run_append]
    cases hok : ok fd with
    | true =>
      have htwo : Machine.run solo (d, clients, w) [.install, .register true]
          = (d, clients + 1, { w with
              connections := insert fd w.connections, task := .installing queue }) := by
        simp [solo, step, htask, hmem]
      have hrest : ∀ x ∈ queue, x ∉ insert fd w.connections := by
        intro x hx
        rw [Finset.mem_insert, not_or]
        refine ⟨?_, hnew x (List.mem_cons_of_mem fd hx)⟩
        rintro rfl
        exact hfd hx
      rw [if_pos rfl, htwo, ih hqueue hrest rfl]
      simp only [List.filter_cons, hok, Bool.not_true, Bool.false_eq_true, if_false, if_true,
        List.length_cons, List.toFinset_cons, Finset.insert_union, Finset.union_insert]
      rw [Nat.add_right_comm, Nat.add_assoc]
    | false =>
      -- it is put into the map, closed, and taken out again
      have hfour : Machine.run solo (d, clients, w) [.install, .register false, .closeFd, .erase]
          = (d.close fd, clients, { w with task := .installing queue }) := by
        simp [solo, step, htask, hmem]
      rw [if_neg (by simp), hfour,
        ih (w := { w with task := .installing queue }) hqueue
          (fun x hx => hnew x (List.mem_cons_of_mem fd hx)) rfl]
      simp [hok]

/-- A pass takes the whole queue, and installs what can be registered. -/
theorem run_pass (ok : ℕ → Bool) (htask : w.task = .polling) (hpipe : w.pipe ≠ 0)
    (hnodup : w.pending.Nodup) (hnew : ∀ fd ∈ w.pending, fd ∉ w.connections) :
    Machine.run solo (d, clients, w) (w.pass ok)
      = ((w.pending.filter (!ok ·)).foldl Descriptors.close d,
        clients + (w.pending.filter ok).length, { w with
          pending := [], pipe := 0
          connections := w.connections ∪ (w.pending.filter ok).toFinset }) := by
  have hwakeup : solo (d, clients, w) .wakeup = (d, clients, { w with task := .draining }) := by
    simp [solo, step, htask, hpipe]
  have htake : solo (d, clients, { w with pipe := 0, task := .drained }) .takePending
      = (d, clients, { w with pipe := 0, pending := [], task := .installing w.pending }) := rfl
  rw [pass, List.cons_append, List.cons_append, run_cons, hwakeup, List.append_assoc, run_append,
    run_readPipe (w := { w with task := .draining }) (by simp only; omega) rfl, List.cons_append,
    run_cons, htake, run_install (w := { w with
      pipe := 0, pending := [], task := .installing w.pending }) ok hnodup hnew rfl, ← htask]

end WorkerThread

namespace Handover

variable {n maxClients : ℕ} {s : Handover n}

/-- The steps of one worker. -/
theorem run_worker (i : Fin n) (events : List ThreadEvent) :
    Machine.run (step maxClients) s (events.map (.worker i))
      = { s.setWorker i (Machine.run WorkerThread.solo
            (s.descriptors, s.connectedClients, s.workers i) events).2.2 with
          descriptors := (Machine.run WorkerThread.solo
            (s.descriptors, s.connectedClients, s.workers i) events).1
          connectedClients := (Machine.run WorkerThread.solo
            (s.descriptors, s.connectedClients, s.workers i) events).2.1 } := by
  induction events generalizing s with
  | nil => simp [setWorker]
  | cons e events ih =>
    rw [List.map_cons, run_cons, run_cons, ih]
    simp [step, setWorker, WorkerThread.solo]

/-- What waits for a worker is different from what it has, and from each other. -/
theorem Owned.pending_new (h : Owned s) {i : Fin n} (htask : (s.workers i).task = .polling) :
    (s.workers i).pending.Nodup ∧ ∀ fd ∈ (s.workers i).pending, fd ∉ (s.workers i).connections := by
  have hone : ∀ fd, (s.workers i).pending.count fd + tally (s.workers i).connections fd ≤ 1 := by
    intro fd
    have hle := (h.holds_le i fd).trans (tally_le_one _ fd)
    simpa [WorkerThread.holds, WorkerThread.onTheWay, WorkerThread.live, htask] using hle
  refine ⟨List.nodup_iff_count_le_one.mpr fun fd => (Nat.le_add_right _ _).trans (hone fd),
    fun fd hfd hmem => ?_⟩
  have hpos := List.count_pos_iff.mpr hfd
  have hle := hone fd
  simp only [tally, hmem, if_true] at hle
  omega

/-- A pass that finds something in the pipe takes the whole queue. -/
theorem Owned.pass_installs (h : Owned s) {i : Fin n} (htask : (s.workers i).task = .polling)
    (hpipe : (s.workers i).pipe ≠ 0) (ok : ℕ → Bool) {s' : Handover n}
    (hs' : s' = Machine.run (Handover.step maxClients) s (((s.workers i).pass ok).map (.worker i))) :
    (s'.workers i).task = .polling ∧ (s'.workers i).pending = [] ∧
      (s'.workers i).connections
        = (s.workers i).connections ∪ ((s.workers i).pending.filter ok).toFinset ∧
      s'.connectedClients = s.connectedClients + ((s.workers i).pending.filter ok).length ∧
      s'.descriptors.opened
        = s.descriptors.opened \ ((s.workers i).pending.filter (!ok ·)).toFinset := by
  obtain ⟨hnodup, hnew⟩ := h.pending_new htask
  rw [run_worker, WorkerThread.run_pass ok htask hpipe hnodup hnew] at hs'
  subst hs'
  simp [setWorker, htask, Descriptors.opened_foldl_close]

/-- **What is handed over is installed.** A worker that polls with something in its queue, when the
acceptor is not just about to wake it, finds a byte in its pipe. The pass that this starts, when no
other thread comes in between, takes the whole queue: what can be registered with `epoll` is in the
map behind it and counted, and what cannot is closed. -/
theorem handed_over_is_installed (maxClients : ℕ) (events : List (HandoverEvent n)) (i : Fin n)
    (hpolling : ((Machine.run (step maxClients) {} events).workers i).task = .polling)
    (hpending : ((Machine.run (step maxClients) {} events).workers i).pending ≠ [])
    (hacceptor : (Machine.run (step maxClients) {} events).acceptor ≠ .waking i) (ok : ℕ → Bool) :
    let s := Machine.run (step maxClients) {} events
    let s' := Machine.run (step maxClients) s (((s.workers i).pass ok).map (.worker i))
    (s.workers i).pipe ≠ 0 ∧
      (s'.workers i).task = .polling ∧ (s'.workers i).pending = [] ∧
      (s'.workers i).connections
        = (s.workers i).connections ∪ ((s.workers i).pending.filter ok).toFinset ∧
      s'.connectedClients = s.connectedClients + ((s.workers i).pending.filter ok).length ∧
      s'.descriptors.opened
        = s.descriptors.opened \ ((s.workers i).pending.filter (!ok ·)).toFinset := by
  intro s s'
  have hpipe : (s.workers i).pipe ≠ 0 := by
    rcases (noticed_init.run events i hpending).resolve_left hacceptor with hpipe | htask
    · exact hpipe
    · rw [hpolling] at htask
      exact htask.elim
  have howned : Owned s := owned_init.run events
  exact ⟨hpipe, howned.pass_installs hpolling hpipe ok rfl⟩

/-- The events by which the acceptor hands a descriptor over. -/
def handing (fd : ℕ) : List (HandoverEvent n) := [.accept fd, .check true, .push, .wake true]

/-- Three clients, of which one cannot be registered, and one pass of the only worker. -/
theorem handed_over_is_installed_three :
    let s := Machine.run (step 10) ({} : Handover 1) (handing 5 ++ handing 6 ++ handing 7)
    let s' := Machine.run (step 10) s (((s.workers 0).pass (· ≠ 6)).map (.worker 0))
    (s'.workers 0).connections = {5, 7} ∧ s'.descriptors.opened = {5, 7} := by
  have h := handed_over_is_installed 10 (handing 5 ++ handing 6 ++ handing 7) (0 : Fin 1) rfl
    (by decide) (by decide) (· ≠ 6)
  refine ⟨h.2.2.2.1, h.2.2.2.2.2.trans ?_⟩
  decide

/-! ## After the stop -/

/-- **After the stop** of all threads the descriptors that are still open are those that were handed
over and not taken from a queue any more. -/
theorem open_after_stop (maxClients : ℕ) (events : List (HandoverEvent n))
    (hacceptor : (Machine.run (step maxClients) {} events).acceptor = .ended)
    (hworkers : ∀ i, ((Machine.run (step maxClients) {} events).workers i).task = .ended) (fd : ℕ) :
    fd ∈ (Machine.run (step maxClients) ({} : Handover n) events).descriptors.opened ↔
      ∃ i, fd ∈ ((Machine.run (step maxClients) ({} : Handover n) events).workers i).pending := by
  have howned : Owned (Machine.run (step maxClients) ({} : Handover n) events) := owned_init.run events
  generalize Machine.run (step maxClients) ({} : Handover n) events = s at *
  have hholds : ∀ i, (s.workers i).holds fd = (s.workers i).pending.count fd := by
    intro i
    simp [WorkerThread.holds, WorkerThread.onTheWay, WorkerThread.live, hworkers i, tally]
  have hheld := howned.held fd
  simp only [holders, hacceptor, AcceptTask.holds, hholds, Nat.zero_add] at hheld
  constructor
  · intro hopen
    rw [tally, if_pos hopen] at hheld
    by_contra hnone
    have hzero : ∑ i, (s.workers i).pending.count fd = 0 :=
      Finset.sum_eq_zero fun i _ => List.count_eq_zero.mpr fun hmem => hnone ⟨i, hmem⟩
    omega
  · rintro ⟨i, hmem⟩
    by_contra hclosed
    rw [tally, if_neg hclosed] at hheld
    have hzero := Finset.sum_eq_zero_iff.mp hheld i (Finset.mem_univ i)
    exact List.count_eq_zero.mp hzero hmem

/-- The server stops with one client installed and one on its way. -/
def earlyStop : List (HandoverEvent 1) :=
  handing 5 ++
    [.worker 0 .wakeup, .worker 0 .readPipe, .worker 0 .readPipe, .worker 0 .takePending,
      .worker 0 .install, .worker 0 (.register true), .worker 0 .install] ++
    handing 6 ++
    [.endAccept, .stopWorker 0, .wakeWorker 0 true, .worker 0 .leaveLoop, .worker 0 (.closeNext 5),
      .worker 0 .connectionClosed, .worker 0 .clear]

/-- The first client is closed, the second is not. -/
theorem earlyStop_leaves_one :
    6 ∈ (Machine.run (step 10) ({} : Handover 1) earlyStop).descriptors.opened := by
  refine (open_after_stop 10 earlyStop rfl (fun i => ?_) 6).mpr ⟨0, by decide⟩
  obtain rfl : i = 0 := Subsingleton.elim _ _
  rfl

end Handover

/-! ## Refinement -/

/-- What a thread is at, in the coarse machine. A connection that is closed and not yet erased is
still there, and one that is being dropped is still being registered. -/
def ThreadTask.toTask : ThreadTask → Task
  | .polling | .draining | .drained | .closing _ | .erasing _ => .serving
  | .installing queue | .duplicated _ queue => .installing queue
  | .registering fd queue | .dropping fd queue | .forgetting fd queue => .registering fd queue
  | .uncounting => .closing
  | .closingAll left => .closingAll left.card
  | .uncountingAll left => .closingAll (left.card + 1)
  | .ended => .ended

/-- A worker as the abstract pool has it. -/
def WorkerThread.toState (w : WorkerThread) : WorkerState := ⟨w.pending, w.connections, w.task.toTask⟩

/-- The acceptor as the abstract pool has it. -/
def AcceptTask.toAcceptor {n : ℕ} : AcceptTask n → Acceptor
  | .listening | .accepted _ | .refusing _ | .waking _ => .listening
  | .admitted fd => .admitted fd
  | .ended => .ended

/-- The coarse machine has moved on to the next worker as soon as the queue has changed. -/
def Handover.toGate {n : ℕ} (s : Handover n) : Gate n where
  acceptor := s.acceptor.toAcceptor
  nextWorker := match s.acceptor with
    | .waking _ => (s.nextWorker + 1) % 2 ^ 64
    | _ => s.nextWorker
  connectedClients := s.connectedClients
  workers i := (s.workers i).toState

namespace WorkerThread

/-- A worker does not stop by itself. -/
theorem stopping_step (d : Descriptors) (clients : ℕ) (w : WorkerThread) (e : ThreadEvent) :
    (w.step d clients e).2.2.stopping = w.stopping := by
  unfold step
  split <;> try split_ifs
  all_goals rfl

/-- A step of the fine machine is one of the coarse machine, or none. -/
theorem toState_step {d : Descriptors} {clients : ℕ} {w : WorkerThread} {acceptorEnded : Bool}
    (hsound : w.Sound) (hstop : w.stopping = true → acceptorEnded = true) (e : ThreadEvent) :
    ((w.step d clients e).2.1, (w.step d clients e).2.2.toState) = (clients, w.toState) ∨
      ∃ e', ((w.step d clients e).2.1, (w.step d clients e).2.2.toState)
        = w.toState.step acceptorEnded clients e' := by
  unfold step
  split
  · next htask => split_ifs <;> exact .inl (by simp [toState, ThreadTask.toTask, htask])
  · next htask => split_ifs <;> exact .inl (by simp [toState, ThreadTask.toTask, htask])
  · next htask =>
    exact .inr ⟨.takePending, by simp [toState, ThreadTask.toTask, htask, WorkerState.step]⟩
  · next htask => exact .inr ⟨.install, by simp [toState, ThreadTask.toTask, htask, WorkerState.step]⟩
  · next x queue htask =>
    refine .inr ⟨.install, ?_⟩
    split_ifs with hmem <;> simp [toState, ThreadTask.toTask, htask, WorkerState.step, hmem]
  · next x queue htask => exact .inl (by simp [toState, ThreadTask.toTask, htask])
  · next x queue htask =>
    exact .inr ⟨.register true, by simp [toState, ThreadTask.toTask, htask, WorkerState.step]⟩
  · next x queue htask => exact .inl (by simp [toState, ThreadTask.toTask, htask])
  · next x queue htask => exact .inl (by simp [toState, ThreadTask.toTask, htask])
  · next x queue htask =>
    exact .inr ⟨.register false, by simp [toState, ThreadTask.toTask, htask, WorkerState.step]⟩
  · next x htask => split_ifs <;> exact .inl (by simp [toState, ThreadTask.toTask, htask])
  · next x htask => exact .inl (by simp [toState, ThreadTask.toTask, htask])
  · next x htask =>
    have hmem : x ∈ w.connections := by simpa [Sound, htask] using hsound
    exact .inr ⟨.close x, by simp [toState, ThreadTask.toTask, htask, WorkerState.step, hmem]⟩
  · next htask =>
    exact .inr ⟨.connectionClosed, by simp [toState, ThreadTask.toTask, htask, WorkerState.step]⟩
  · next htask =>
    split_ifs with hstopping
    · exact .inr ⟨.stop, by
        simp [toState, ThreadTask.toTask, htask, WorkerState.step, hstop hstopping]⟩
    · exact .inl rfl
  · next x left htask =>
    split_ifs with hmem
    · exact .inl (by
        simp [toState, ThreadTask.toTask, htask, Finset.card_erase_add_one hmem])
    · exact .inl rfl
  · next left htask =>
    exact .inr ⟨.connectionClosed, by simp [toState, ThreadTask.toTask, htask, WorkerState.step]⟩
  · next left htask =>
    split_ifs with hleft
    · exact .inr ⟨.connectionClosed, by
        simp [toState, ThreadTask.toTask, htask, WorkerState.step, hleft]⟩
    · exact .inl rfl
  · exact .inl rfl

end WorkerThread

namespace Handover

variable {n maxClients : ℕ} {s : Handover n}

/-- Workers are stopped after the acceptor. -/
def StopsLate (s : Handover n) : Prop := ∀ i, (s.workers i).stopping = true → s.acceptor = .ended

/-- It holds at the start. -/
theorem stopsLate_init : StopsLate ({} : Handover n) := fun _ hstop => by cases hstop

/-- A change of one worker that is not told to stop keeps it. -/
theorem StopsLate.change {s' : Handover n} (h : StopsLate s) (i : Fin n) (w : WorkerThread)
    (hworkers : s'.workers = Function.update s.workers i w)
    (hself : w.stopping = true → s'.acceptor = .ended)
    (hothers : s.acceptor = .ended → s'.acceptor = .ended) : StopsLate s' := by
  intro j
  rw [hworkers]
  by_cases hj : j = i
  · subst hj
    rw [Function.update_self]
    exact hself
  · rw [Function.update_of_ne hj]
    exact fun hstop => hothers (h j hstop)

/-- Every event keeps it. -/
theorem StopsLate.step (h : StopsLate s) (e : HandoverEvent n) : StopsLate (s.step maxClients e) := by
  have hquiet : ∀ {s' : Handover n}, s'.workers = s.workers → s.acceptor ≠ .ended → StopsLate s' :=
    fun hworkers hacceptor i hstop => absurd (h i (hworkers ▸ hstop)) hacceptor
  unfold Handover.step
  split
  · next hacceptor =>
    split_ifs
    · exact h
    · exact hquiet rfl (by simp [hacceptor])
  · next hacceptor => split_ifs <;> exact hquiet rfl (by simp [hacceptor])
  · next hacceptor => exact hquiet rfl (by simp [hacceptor])
  · next fd hacceptor =>
    have hno : s.acceptor ≠ .ended := by simp [hacceptor]
    split_ifs with hn
    · exact h.change _ _ rfl (fun hstop => absurd (h ⟨_, Nat.mod_lt _ hn⟩ hstop) hno)
        fun hended => absurd hended hno
    · exact h
  · next written i hacceptor =>
    have hno : s.acceptor ≠ .ended := by simp [hacceptor]
    split
    · exact h
    · next w hwake =>
      obtain ⟨pipe, -, rfl⟩ := WorkerThread.wake_eq hwake
      exact h.change i _ rfl (fun hstop => absurd (h i hstop) hno) fun hended => absurd hended hno
  · next hacceptor => exact hquiet rfl (by simp [hacceptor])
  · next i hacceptor => exact h.change i _ rfl (fun _ => hacceptor) fun hended => hended
  · next i written hacceptor =>
    split
    · exact h
    · next w hwake =>
      obtain ⟨pipe, -, rfl⟩ := WorkerThread.wake_eq hwake
      exact h.change i _ rfl (h i) fun hended => hended
  · next acceptor i e =>
    refine h.change i ((s.workers i).step s.descriptors s.connectedClients e).2.2 rfl ?_
      fun hended => hended
    rw [WorkerThread.stopping_step]
    exact h i
  · exact h

/-- A change of one worker is one of the abstract pool. -/
theorem toState_update (s : Handover n) (i : Fin n) (w : WorkerThread) :
    (fun j => (Function.update s.workers i w j).toState)
      = Function.update (fun j => (s.workers j).toState) i w.toState := by
  funext j
  exact congrFun (Function.comp_update WorkerThread.toState s.workers i w) j

/-- A change that the coarse machine does not see. -/
theorem toGate_eq_of_change {s s' : Handover n} (i : Fin n) (w : WorkerThread)
    (hworkers : s'.workers = Function.update s.workers i w) (hstate : w.toState = (s.workers i).toState)
    (hacceptor : s'.acceptor.toAcceptor = s.acceptor.toAcceptor)
    (hnext : s'.toGate.nextWorker = s.toGate.nextWorker)
    (hclients : s'.connectedClients = s.connectedClients) : s'.toGate = s.toGate := by
  rw [toGate, toGate, Gate.mk.injEq]
  refine ⟨hacceptor, hnext, hclients, ?_⟩
  rw [hworkers, toState_update, hstate]
  exact Function.update_eq_self i fun j => (s.workers j).toState

/-- **Refinement.** A step of the fine machine is a step of the coarse one, or none. -/
theorem toGate_step (h : Owned s) (hstop : StopsLate s) (e : HandoverEvent n) :
    (s.step maxClients e).toGate = s.toGate ∨
      ∃ e', (s.step maxClients e).toGate = s.toGate.step maxClients e' := by
  unfold Handover.step
  split
  · next fd hacceptor =>
    split_ifs
    · exact .inl rfl
    · exact .inl (by simp [toGate, hacceptor, AcceptTask.toAcceptor])
  · next nonblocking fd hacceptor =>
    refine .inr ⟨.accept fd nonblocking, ?_⟩
    cases nonblocking with
    | false => simp [toGate, hacceptor, AcceptTask.toAcceptor, Gate.step]
    | true =>
      simp only [Gate.step, toGate, hacceptor, AcceptTask.toAcceptor]
      split_ifs <;> simp_all
  · next fd hacceptor => exact .inl (by simp [toGate, hacceptor, AcceptTask.toAcceptor])
  · next fd hacceptor =>
    refine .inr ⟨.addConnection, ?_⟩
    by_cases hn : 0 < n
    · simp only [Gate.step, toGate, hacceptor, AcceptTask.toAcceptor, hn, dif_pos, setWorker,
        toState_update]
      rfl
    · simp [Gate.step, toGate, hacceptor, AcceptTask.toAcceptor, hn]
  · next written i hacceptor =>
    split
    · exact .inl rfl
    · next w hwake =>
      obtain ⟨pipe, -, rfl⟩ := WorkerThread.wake_eq hwake
      exact .inl (toGate_eq_of_change i _ rfl rfl (by simp [hacceptor, AcceptTask.toAcceptor])
        (by simp [toGate, hacceptor]) rfl)
  · next hacceptor =>
    exact .inr ⟨.endAccept, by simp [Gate.step, toGate, hacceptor, AcceptTask.toAcceptor]⟩
  · next i hacceptor => exact .inl (toGate_eq_of_change i _ rfl rfl rfl rfl rfl)
  · next i written hacceptor =>
    split
    · exact .inl rfl
    · next w hwake =>
      obtain ⟨pipe, -, rfl⟩ := WorkerThread.wake_eq hwake
      exact .inl (toGate_eq_of_change i _ rfl rfl rfl rfl rfl)
  · next acceptor i e =>
    have hended : (s.workers i).stopping = true → decide (s.toGate.acceptor = .ended) = true := by
      intro hstopping
      simp [toGate, hstop i hstopping, AcceptTask.toAcceptor]
    rcases WorkerThread.toState_step (d := s.descriptors) (h.sound i) hended e with hsame | ⟨e', hstep⟩
    · rw [Prod.mk.injEq] at hsame
      exact .inl (toGate_eq_of_change i
        ((s.workers i).step s.descriptors s.connectedClients e).2.2 rfl hsame.2 rfl rfl hsame.1)
    · refine .inr ⟨.worker i e', ?_⟩
      have hworker : s.toGate.workers i = (s.workers i).toState := rfl
      rw [← hworker] at hstep
      simp only [Gate.step]
      rw [show s.toGate.connectedClients = s.connectedClients from rfl, ← hstep]
      simp only [toGate, setWorker, toState_update]
  · exact .inl rfl

end Handover

/-! ## The counter -/

/-- What a worker has contributed to `connected_clients`: the connections in its map, but for one
that it is just registering or dropping, and with one that it has erased and not yet uncounted; at
its end, what it has still to uncount. -/
def WorkerThread.counted (w : WorkerThread) : ℕ :=
  match w.task with
  | .registering _ _ | .dropping _ _ | .forgetting _ _ => w.connections.card - 1
  | .uncounting => w.connections.card + 1
  | .closingAll left => left.card
  | .uncountingAll left => left.card + 1
  | .ended => 0
  | _ => w.connections.card

/-- The abstract worker counts the same clients. -/
theorem WorkerThread.counted_toState (w : WorkerThread) : w.toState.counted = w.counted := by
  rw [WorkerState.counted, WorkerThread.counted, toState]
  cases w.task <;> rfl

namespace Handover

variable {n : ℕ}

/-- **The counter is exact.** In every state of every run `connected_clients` is the sum of what the
workers have contributed. -/
theorem connectedClients_eq_sum (maxClients : ℕ) (events : List (HandoverEvent n)) :
    (Machine.run (step maxClients) ({} : Handover n) events).connectedClients
      = ∑ i, ((Machine.run (step maxClients) ({} : Handover n) events).workers i).counted := by
  have hinv : ∀ s : Handover n, Owned s ∧ StopsLate s ∧ s.toGate.Exact → ∀ e,
      Owned (s.step maxClients e) ∧ StopsLate (s.step maxClients e) ∧
        (s.step maxClients e).toGate.Exact := by
    rintro s ⟨howned, hstop, hexact⟩ e
    refine ⟨howned.step e, hstop.step e, ?_⟩
    rcases toGate_step howned hstop e with hsame | ⟨e', hstep⟩
    · rwa [hsame]
    · rw [hstep]
      exact hexact.step e'
  have hrun := run_invariant (fun s e hs _ => hinv s hs e)
    ⟨owned_init, stopsLate_init, Gate.exact_init⟩ (allSteps_true ({} : Handover n) events)
  have hcounted := hrun.2.2.counted
  simp only [toGate, WorkerThread.counted_toState] at hcounted
  exact hcounted

end Handover

end VeloxDb.Net
