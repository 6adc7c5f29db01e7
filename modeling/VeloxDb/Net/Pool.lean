import VeloxDb.Net.Closing

/-!
# `net/tcp_server.cpp`: the event loop of a worker

A `Session` is one connection; `Pool` is `loop_epoll` with all connections of a worker. A round
begins with a batch of events. They are handled one after another: a wake-up installs what the
acceptor has handed over, an event of a client is handled by its session, and behind it the interest
in the client is registered anew, or the client is put on the list of those that are closed when the
batch is done. Other workers may change what is shared at any time.

A step of the pool lets each connection stay, come, go or make a step of its own (`Turn`), so what
holds along the runs of a session holds for all connections at once. And whenever the worker waits, it has
registered for writing exactly the connections that have something to write, the set that
`loop_poll` computes from scratch in every round.
-/

namespace VeloxDb.Net

open Resp

/-! ## The loop -/

/-- An event of a batch: the wake-up pipe, with the descriptors that are found in the queue and
whether each can be registered; or a client. -/
inductive Ready
  | wakeup (found : List (ℕ × Bool))
  | client (fd : ℕ) (mask : Mask)

/-- The descriptor of a client. -/
def Ready.client? : Ready → Option ℕ
  | .wakeup _ => none
  | .client fd _ => some fd

/-- The worker in `loop_epoll`: its connections; what is registered with the kernel, `true` where it
is registered for writing; the rest of the batch; the connection that is being handled; and those
that are going to be closed. -/
structure Pool (σ : Type) where
  shared : σ
  connections : ℕ → Option (Session σ) := fun _ => none
  interest : ℕ → Option Bool := fun _ => none
  batch : List Ready := []
  active : Option ℕ := none
  closeList : List ℕ := []

/-- What happens next: `epoll_wait` returns, with each client at most once; the next event of the
batch is taken; `read` or `write` returns on the connection that is being handled; its handling
ends, with the answer of `epoll_ctl(EPOLL_CTL_MOD)`; a connection on the list is closed; other
workers do something; or the worker is stopped. -/
inductive PoolEvent (σ : Type)
  | wait (batch : List Ready)
  | next
  | read (r : ReadResult)
  | write (r : WriteResult)
  | finish (modified : Bool)
  | close
  | others (shared : σ)
  | stop

/-- `kMaxEvents`: how many events `epoll_wait` reports at once. -/
def kMaxEvents : ℕ := 256

/-- `EPOLLOUT` in `update_connection_interest`, `POLLOUT` in `loop_poll`. -/
def Session.wantsWrite {σ : Type} (s : Session σ) : Bool := !s.writeBuffer.isEmpty

namespace Pool

variable {σ : Type} (exec : σ → List Bytes → CommandResult × σ) (config : ProtocolConfig)

/-- One turn of the loop of `install_pending`. -/
def install (p : Pool σ) (found : ℕ × Bool) : Pool σ :=
  match p.connections found.1 with
  | some _ => p
  | none =>
    if found.2 then
      { p with
        connections := Function.update p.connections found.1 (some (.fresh config p.shared))
        interest := Function.update p.interest found.1 (some false) }
    else p

/-- A step of the session on a descriptor, on what is shared now. -/
def handle (p : Pool σ) (fd : ℕ) (s : Session σ) (e : Event σ) : Pool σ :=
  let s := Session.step exec config { s with shared := p.shared } e
  { p with shared := s.shared, connections := Function.update p.connections fd (some s) }

/-- The step of the connection that is being handled. -/
def handleActive (p : Pool σ) (e : Event σ) : Pool σ :=
  match p.active with
  | none => p
  | some fd =>
    match p.connections fd with
    | none => p
    | some s => p.handle exec config fd s e

/-- The end of the handling of an event. -/
def finish (p : Pool σ) (modified : Bool) : Pool σ :=
  match p.active with
  | none => p
  | some fd =>
    match p.connections fd with
    | none => p
    | some s =>
      match s.phase with
      | .closed => { p with active := none, closeList := p.closeList ++ [fd] }
      | .idle =>
        { p with
          active := none
          interest :=
            if modified then Function.update p.interest fd (some s.wantsWrite) else p.interest }
      | _ => p

/-- The worker is between two batches. -/
def Waiting (p : Pool σ) : Prop := p.active = none ∧ p.batch = [] ∧ p.closeList = []

instance (p : Pool σ) : Decidable p.Waiting :=
  inferInstanceAs (Decidable (_ ∧ p.batch = [] ∧ _))

/-- One event of a worker. -/
def step (p : Pool σ) : PoolEvent σ → Pool σ
  | .wait batch =>
    if p.Waiting ∧ (batch.filterMap Ready.client?).Nodup then
      { p with batch := batch.take kMaxEvents }
    else p
  | .next =>
    match p.active, p.batch with
    | none, .wakeup found :: batch => found.foldl (install config) { p with batch }
    | none, .client fd mask :: batch =>
      match p.connections fd with
      | none => { p with batch }
      | some s => { p with batch, active := some fd }.handle exec config fd s (.ready mask)
    | _, _ => p
  | .read r => p.handleActive exec config (.read r)
  | .write r => p.handleActive exec config (.write r)
  | .finish modified => p.finish modified
  | .close =>
    match p.active, p.batch, p.closeList with
    | none, [], fd :: closeList =>
      { p with
        closeList
        connections := Function.update p.connections fd none
        interest := Function.update p.interest fd none }
    | _, _, _ => p
  | .others shared => { p with shared }
  | .stop =>
    if p.Waiting then { p with connections := fun _ => none, interest := fun _ => none } else p

/-- A run from a worker without connections. -/
def run (shared : σ) (events : List (PoolEvent σ)) : Pool σ :=
  Machine.run (step exec config) { shared } events

/-! ## Every connection is a session -/

/-- What an event of the worker is to the connection on a descriptor: the mask that is reported for
it, or the answer to a `read` or a `write` on it. -/
def own (fd : ℕ) (p : Pool σ) : PoolEvent σ → Option (Event σ)
  | .next =>
    match p.active, p.batch with
    | none, .client reported mask :: _ => if reported = fd then some (.ready mask) else none
    | _, _ => none
  | .read r => if p.active = some fd then some (.read r) else none
  | .write r => if p.active = some fd then some (.write r) else none
  | _ => none

/-- The connection's own events in the course of a run, each behind the data as it is then. -/
def ownEvents (fd : ℕ) : Pool σ → List (PoolEvent σ) → List (Event σ)
  | _, [] => []
  | p, e :: events =>
    match p.own fd e with
    | none => ownEvents fd (p.step exec config e) events
    | some e' => .others p.shared :: e' :: ownEvents fd (p.step exec config e) events

section Sessions

variable {exec config} {p p' : Pool σ}

/-- What can become of the connection on a descriptor: it stays, it goes, a fresh one comes, or an
event of its own moves it. -/
inductive Turn (exec : σ → List Bytes → CommandResult × σ) (config : ProtocolConfig) (shared : σ) :
    Option (Event σ) → Option (Session σ) → Option (Session σ) → Prop
  | stays (c : Option (Session σ)) : Turn exec config shared none c c
  | absent (e : Option (Event σ)) : Turn exec config shared e none none
  | goes (c : Option (Session σ)) : Turn exec config shared none c none
  | comes : Turn exec config shared none none (some (.fresh config shared))
  | moves (s : Session σ) (e : Event σ) :
      Turn exec config shared (some e) (some s) (some (Session.step exec config { s with shared } e))

/-- A step of the session on `fd` is one of its own, and nothing to the others. -/
theorem turn_handle {s : Session σ} {fd : ℕ} (h : p.connections fd = some s) (e : Event σ) (x : ℕ) :
    Turn exec config p.shared (if fd = x then some e else none) (p.connections x)
      ((p.handle exec config fd s e).connections x) := by
  show Turn exec config p.shared _ _ (Function.update p.connections fd
    (some (Session.step exec config { s with shared := p.shared } e)) x)
  by_cases hx : fd = x
  · subst hx
    rw [if_pos rfl, Function.update_self, h]
    exact .moves s e
  · rw [if_neg hx, Function.update_of_ne (Ne.symm hx)]
    exact .stays _

/-- A descriptor from the queue gets a fresh connection, or nothing happens. -/
theorem install_cases (config : ProtocolConfig) (p : Pool σ) (f : ℕ × Bool) :
    install config p f = p ∨
      (p.connections f.1 = none ∧
        install config p f = { p with
          connections := Function.update p.connections f.1 (some (.fresh config p.shared))
          interest := Function.update p.interest f.1 (some false) }) := by
  rw [install]
  split
  · exact .inl rfl
  · next hnone =>
    split_ifs
    · exact .inr ⟨hnone, rfl⟩
    · exact .inl rfl

/-- A wake-up lets connections come, and changes no other. -/
theorem turn_foldl_install (found : List (ℕ × Bool)) (p : Pool σ) (x : ℕ) :
    Turn exec config p.shared none (p.connections x) ((found.foldl (install config) p).connections x) ∧
      (p.connections x ≠ none → (found.foldl (install config) p).connections x = p.connections x) := by
  induction found generalizing p with
  | nil => exact ⟨.stays _, fun _ => rfl⟩
  | cons f found ih =>
    rw [List.foldl_cons]
    rcases install_cases config p f with hsame | ⟨hnone, hnew⟩
    · rw [hsame]
      exact ih p
    · obtain ⟨hturn, hkeep⟩ := ih (install config p f)
      rw [hnew] at hturn hkeep ⊢
      by_cases hx : x = f.1
      · subst hx
        simp only [Function.update_self] at hkeep
        rw [hkeep (by simp), hnone]
        exact ⟨.comes, fun h => absurd rfl h⟩
      · simp only [Function.update_of_ne hx] at hturn hkeep
        exact ⟨hturn, hkeep⟩

variable (exec config) in
/-- **Inversion.** What a step of the pool does to each of its connections. -/
theorem turn_step (p : Pool σ) (e : PoolEvent σ) (x : ℕ) :
    Turn exec config p.shared (p.own x e) (p.connections x) ((p.step exec config e).connections x) := by
  have hactive : ∀ e, Turn exec config p.shared (if p.active = some x then some e else none)
      (p.connections x) ((p.handleActive exec config e).connections x) := by
    intro e
    rw [handleActive]
    cases hp : p.active with
    | none =>
      rw [if_neg (by simp)]
      exact .stays _
    | some fd =>
      simp only [Option.some.injEq]
      cases hs : p.connections fd with
      | none =>
        by_cases hx : fd = x
        · subst hx
          rw [hs]
          exact .absent _
        · rw [if_neg hx]
          exact .stays _
      | some s => exact turn_handle hs e x
  cases e with
  | wait batch =>
    show Turn exec config p.shared none _ _
    rw [step]
    split_ifs <;> exact .stays _
  | next =>
    rw [own, step]
    cases hp : p.active with
    | some fd => exact .stays _
    | none =>
      cases hb : p.batch with
      | nil => exact .stays _
      | cons ready batch =>
        cases ready with
        | wakeup found => exact (turn_foldl_install found { p with batch, active := none } x).1
        | client fd mask =>
          cases hs : p.connections fd with
          | none =>
            by_cases hx : fd = x
            · subst hx
              simp only [hs]
              exact .absent _
            · simp only [if_neg hx, hs]
              exact .stays _
          | some s =>
            simp only [hs]
            exact turn_handle (p := { p with batch, active := some fd }) hs (.ready mask) x
  | read r => exact hactive _
  | write r => exact hactive _
  | finish modified =>
    show Turn exec config p.shared none _ _
    rw [step, finish]
    split
    · exact .stays _
    · split
      · exact .stays _
      · split <;> exact .stays _
  | close =>
    show Turn exec config p.shared none _ _
    rw [step]
    split
    · next fd closeList _ _ _ =>
      by_cases hx : x = fd
      · subst hx
        simp only [Function.update_self]
        exact .goes _
      · simp only [Function.update_of_ne hx]
        exact .stays _
    · exact .stays _
  | others shared => exact .stays _
  | stop =>
    show Turn exec config p.shared none _ _
    rw [step]
    split_ifs
    · exact .goes _
    · exact .stays _

/-- A property of sessions that fresh ones have and every step keeps is one of all connections. -/
theorem connections_run {P : Session σ → Prop} (hfresh : ∀ shared, P (.fresh config shared))
    (hstep : ∀ s shared e, P s → P (Session.step exec config { s with shared } e)) (shared : σ)
    (events : List (PoolEvent σ)) :
    ∀ fd s, (run exec config shared events).connections fd = some s → P s := by
  refine Machine.run_invariant (I := fun p : Pool σ => ∀ fd s, p.connections fd = some s → P s)
    (fun p e hp _ fd s hs => ?_) (fun fd s hs => by cases hs) (Machine.allSteps_true _ events)
  have hturn := turn_step exec config p e fd
  rw [hs] at hturn
  generalize hc : p.connections fd = c, p.own fd e = o at hturn
  cases hturn with
  | stays => exact hp fd s hc
  | comes => exact hfresh p.shared
  | moves s₀ e => exact hstep s₀ p.shared e (hp fd s₀ hc)

variable (exec config) in
/-- The events of one connection, in a run and what follows it. -/
theorem ownEvents_append (fd : ℕ) (p : Pool σ) (events more : List (PoolEvent σ)) :
    ownEvents exec config fd p (events ++ more) = ownEvents exec config fd p events
      ++ ownEvents exec config fd (Machine.run (step exec config) p events) more := by
  induction events generalizing p with
  | nil => rfl
  | cons e events ih =>
    simp only [List.cons_append, ownEvents, Machine.run_cons]
    cases p.own fd e with
    | none => exact ih _
    | some e' => simp only [ih, List.cons_append]

variable (exec config) in
/-- One more event. -/
theorem run_snoc (shared : σ) (events : List (PoolEvent σ)) (e : PoolEvent σ) :
    run exec config shared (events ++ [e]) = (run exec config shared events).step exec config e :=
  Machine.run_append _ events [e]

/-- **Every connection is a session.** A connection that a worker has was installed at some event and
has been there ever since. From then on it is where a connection on its own gets to by its own events:
the masks that were reported for it and the answers to the reads and writes on it, each on the data as
they were then. Nothing that happens to another connection reaches it in any other way. -/
theorem connection_is_session (shared : σ) (events : List (PoolEvent σ)) {fd : ℕ} {s : Session σ}
    (h : (run exec config shared events).connections fd = some s) :
    ∃ before e after, events = before ++ e :: after ∧
      (run exec config shared before).connections fd = none ∧
      (∀ more, more <+: after → (run exec config shared (before ++ e :: more)).connections fd ≠ none) ∧
      s = Session.run exec config (run exec config shared before).shared
        (ownEvents exec config fd (run exec config shared (before ++ [e])) after) := by
  induction events using List.reverseRecOn generalizing s with
  | nil => cases h
  | append_singleton events e ih =>
    have hturn := turn_step exec config (run exec config shared events) e fd
    rw [← run_snoc, h] at hturn
    -- an event that leaves the connection there is added to those since it was installed
    have hgo : ∀ (own : List (Event σ)) {s₀ : Session σ},
        (run exec config shared events).connections fd = some s₀ →
        ownEvents exec config fd (run exec config shared events) [e] = own →
        s = Machine.run (Session.step exec config) s₀ own →
        ∃ before e₀ after, events ++ [e] = before ++ e₀ :: after ∧
          (run exec config shared before).connections fd = none ∧
          (∀ more, more <+: after →
            (run exec config shared (before ++ e₀ :: more)).connections fd ≠ none) ∧
          s = Session.run exec config (run exec config shared before).shared
            (ownEvents exec config fd (run exec config shared (before ++ [e₀])) after) := by
      intro own s₀ hs₀ hown hs
      obtain ⟨before, e₀, after, rfl, hnone, hthere, rfl⟩ := ih hs₀
      refine ⟨before, e₀, after ++ [e], by simp, hnone, fun more hmore => ?_, ?_⟩
      · rcases List.prefix_concat_iff.mp hmore with rfl | hmore
        · have hlast : before ++ e₀ :: (after ++ [e]) = before ++ e₀ :: after ++ [e] := by simp
          rw [hlast, h]
          simp
        · exact hthere more hmore
      · have hsplit : run exec config shared (before ++ e₀ :: after)
            = Machine.run (step exec config) (run exec config shared (before ++ [e₀])) after := by
          rw [run, run, ← Machine.run_append]
          simp
        rw [ownEvents_append, ← hsplit, hown, hs]
        exact (Machine.run_append _ _ own).symm
    generalize hc : (run exec config shared events).connections fd = c,
      ho : (run exec config shared events).own fd e = o at hturn
    cases hturn with
    | stays =>
      refine hgo [] hc ?_ rfl
      rw [ownEvents, ho]
      rfl
    | comes =>
      refine ⟨events, e, [], rfl, hc, fun more hmore => ?_, rfl⟩
      rw [List.prefix_nil.mp hmore, h]
      simp
    | moves s₀ e' =>
      refine hgo [.others (run exec config shared events).shared, e'] hc ?_ rfl
      rw [ownEvents, ho]
      rfl

/-- Two clients, of which one has a reply waiting and the other has sent a part of a command. -/
def twoClients : List (PoolEvent Shared) :=
  [.wait [.wakeup [(5, true), (6, true)]], .next,
    .wait [.client 5 { readable := true }, .client 6 { readable := true }],
    .next, .read (.bytes (ascii "PING\r\n")), .read .wouldBlock, .finish true,
    .next, .read (.bytes (ascii "SET k")), .read .wouldBlock, .finish true]

/-- A worker in the plain environment, with its registry and the default limits. -/
def plainPool (events : List (PoolEvent Shared)) : Pool Shared :=
  run (registryExec (.plain {}) .listed) {} freshShared events

theorem twoClients_is_session :
    ∃ s, (plainPool twoClients).connections 5 = some s ∧
      ∃ before e after, twoClients = before ++ e :: after ∧
        (plainPool before).connections 5 = none ∧
        (∀ more, more <+: after → (plainPool (before ++ e :: more)).connections 5 ≠ none) ∧
        s = Session.run (registryExec (.plain {}) .listed) {} (plainPool before).shared
          (ownEvents (registryExec (.plain {}) .listed) {} 5 (plainPool (before ++ [e])) after) := by
  have hsome : ((plainPool twoClients).connections 5).isSome = true := by decide +kernel
  obtain ⟨s, hs⟩ := Option.isSome_iff_exists.mp hsome
  exact ⟨s, hs, connection_is_session freshShared twoClients hs⟩

end Sessions

/-! ## What is registered with the kernel -/

section Interest

variable {exec config} {p : Pool σ}

/-- What `loop_poll` asks for: all connections, those with something to write for writing. -/
def pollSet (p : Pool σ) (fd : ℕ) : Option Bool := (p.connections fd).map Session.wantsWrite

/-- Apart from the connection that is being handled and those that will be closed, the connections
are idle, and what is registered is what `loop_poll` would ask for. -/
def Registered (p : Pool σ) : Prop :=
  ∀ fd, p.active ≠ some fd → fd ∉ p.closeList →
    p.interest fd = p.pollSet fd ∧ ∀ s, p.connections fd = some s → s.phase = .idle

/-- `epoll_ctl(EPOLL_CTL_MOD)` does not fail. -/
def Modified : PoolEvent σ → Prop
  | .finish modified => modified = true
  | _ => True

/-- It holds at the start. -/
theorem registered_init (shared : σ) : Registered ({ shared } : Pool σ) :=
  fun _ _ _ => ⟨rfl, fun _ hs => by cases hs⟩

/-- Taking in a connection keeps it. -/
theorem Registered.install (h : Registered p) (f : ℕ × Bool) : Registered (install config p f) := by
  rcases install_cases config p f with hsame | ⟨-, hnew⟩
  · rwa [hsame]
  · rw [hnew]
    intro fd hactive hclose
    by_cases hfd : fd = f.1
    · subst hfd
      simp only [pollSet, Function.update_self]
      refine ⟨rfl, fun s hs => ?_⟩
      cases hs
      rfl
    · simpa [pollSet, hfd] using h fd hactive hclose

/-- Handling a connection keeps it. -/
theorem Registered.handle (h : Registered p) {fd : ℕ} {s : Session σ} {e : Event σ} {p' : Pool σ}
    (hconnections : p'.connections = (p.handle exec config fd s e).connections)
    (hinterest : p'.interest = p.interest) (hactive : p'.active = some fd)
    (hbefore : p.active = none ∨ p.active = some fd) (hclose : p'.closeList = p.closeList) :
    Registered p' := by
  intro x hx hclosed
  have hne : x ≠ fd := by
    rintro rfl
    exact hx hactive
  have hother : p.active ≠ some x := by
    rcases hbefore with hnone | hsome
    · simp [hnone]
    · simpa [hsome] using Ne.symm hne
  have hsame : p'.connections x = p.connections x := by
    rw [hconnections, Pool.handle]
    simp only [Function.update_of_ne hne]
  rw [pollSet, hinterest, hsame]
  exact h x hother (hclose ▸ hclosed)

/-- Behind the handling of an event the interest is what it should be, or the connection is on the
list. -/
theorem Registered.finish (h : Registered p) : Registered (p.finish true) := by
  rw [Pool.finish]
  split
  · exact h
  · next fd hactive =>
    split
    · exact h
    · next s hs =>
      split
      · intro x _ hclose
        rw [List.mem_append, List.mem_singleton, not_or] at hclose
        exact h x (by simpa [hactive] using Ne.symm hclose.2) hclose.1
      · next hidle =>
        intro x _ hclose
        by_cases hx : x = fd
        · subst hx
          simp only [pollSet, hs, if_true, Function.update_self]
          refine ⟨rfl, fun s' hs' => ?_⟩
          cases hs'
          exact hidle
        · have hothers := h x (by simpa [hactive] using Ne.symm hx) hclose
          simpa [pollSet, hx] using hothers
      · exact h

/-- **Every event keeps the registrations in step** with the connections, the one at work and those
that will be closed apart. -/
theorem Registered.step (h : Registered p) {e : PoolEvent σ} (he : Modified e) :
    Registered (p.step exec config e) := by
  have hactive : ∀ e, Registered (p.handleActive exec config e) := by
    intro e
    rw [handleActive]
    split
    · exact h
    · next fd hfd =>
      split
      · exact h
      · next s hs => exact h.handle rfl rfl hfd (.inr hfd) rfl
  cases e with
  | wait batch =>
    rw [Pool.step]
    split_ifs <;> exact h
  | next =>
    rw [Pool.step]
    split
    · next found batch hnone hbatch =>
      have hfold : ∀ (found : List (ℕ × Bool)) (p : Pool σ), Registered p →
          Registered (found.foldl (Pool.install config) p) := by
        intro found
        induction found with
        | nil => exact fun p hp => hp
        | cons f found ih => exact fun p hp => ih _ (hp.install f)
      exact hfold found { p with batch } h
    · next fd mask batch hnone hbatch =>
      split
      · exact h
      · next s hs =>
        exact h.handle (s := s) (e := .ready mask) rfl rfl rfl (.inl hnone) rfl
    · exact h
  | read r => exact hactive _
  | write r => exact hactive _
  | finish modified =>
    obtain rfl : modified = true := he
    exact h.finish
  | close =>
    rw [Pool.step]
    split
    · next fd closeList hnone _ hclose =>
      intro x _ hx
      by_cases hfd : x = fd
      · subst hfd
        simp [pollSet]
      · have hothers := h x (by simp [hnone]) (by simpa [hclose, hfd] using hx)
        simpa [pollSet, hfd] using hothers
    · exact h
  | others shared => exact h
  | stop =>
    rw [Pool.step]
    split_ifs
    · exact fun _ _ _ => ⟨rfl, fun _ hs => by cases hs⟩
    · exact h

variable (exec config) in
/-- After every run that ends with a worker that waits, every connection is registered for what
`loop_poll` would ask for, and none is in the middle of an event. -/
theorem registered_of_waiting (shared : σ) {events : List (PoolEvent σ)}
    (hmodified : ∀ e ∈ events, Modified e) (hwaiting : (run exec config shared events).Waiting)
    (fd : ℕ) :
    (run exec config shared events).interest fd = (run exec config shared events).pollSet fd ∧
      ∀ s, (run exec config shared events).connections fd = some s → s.phase = .idle := by
  have hregistered : Registered (run exec config shared events) :=
    Machine.run_invariant (fun _ _ hp he => hp.step he) (registered_init shared)
      (Machine.allSteps_of_forall hmodified)
  exact hregistered fd (by simp [hwaiting.1]) (by simp [hwaiting.2.2])

/-- **No reply is stranded.** Whenever the worker waits, what is registered with the kernel is what
`loop_poll` would ask for: every connection, and for writing exactly those with something to write.
-/
theorem interest_eq_pollSet (shared : σ) {events : List (PoolEvent σ)}
    (hmodified : ∀ e ∈ events, Modified e) (hwaiting : (run exec config shared events).Waiting) :
    (run exec config shared events).interest = (run exec config shared events).pollSet := by
  funext fd
  exact (registered_of_waiting exec config shared hmodified hwaiting fd).1

theorem twoClients_registered :
    ((plainPool twoClients).interest 5, (plainPool twoClients).interest 6)
        = (some true, some false) ∧
      (plainPool twoClients).interest = (plainPool twoClients).pollSet := by
  refine ⟨by decide +kernel, interest_eq_pollSet freshShared ?_ (by decide +kernel)⟩
  simp [twoClients, Modified]

end Interest

end Pool

end VeloxDb.Net
