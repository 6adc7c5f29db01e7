import VeloxDb.Concurrency.Workers
import VeloxDb.Recovery.Checkpoint
import VeloxDb.Recovery.ErrorReplies

/-!
# Checkpoints under concurrency

A checkpoint cuts the history in two: what was done to the storage before the snapshot, and the
records behind the offset. Whatever the workers do at the same time, a write command has all its
calls on one side of the cut, with its record on the side of its calls. The barrier sees to it: a
command holds it from before its first call until its record is in the log, so at the time of a cut
no command is between the two.

The invariant (`Inv`) goes by the phases of the commands. For each of them it says how it stands to
every checkpoint (`Placed`), and for a checkpoint that is being made, that nothing has happened
since.
-/

namespace VeloxDb.Concurrency

open FileProgram FileSystem Resp

variable {ι : Type}

/-! ## The history -/

/-- None of the accesses is one of the command `i`. -/
def Untouched (i : ι) (accesses : List (Access ι)) : Prop := ∀ a ∈ accesses, a.owner ≠ some i

/-- The text of a list of records. -/
def logText (log : List (ι × List Bytes)) : Bytes := log.flatMap fun p => encodeCommand p.2

/-- What the log holds. -/
def State.contents (s : State ι) : Bytes := s.base ++ logText s.log

/-- The checkpoint cuts the history: its text is that of the entries after the accesses before it,
and its offset is where the records behind it begin. -/
structure Cuts (e₀ : StorageEngine) (s : State ι) (cp : Checkpoint) : Prop where
  performed : cp.performed ≤ s.trace.length
  logged : cp.logged ≤ s.log.length
  text : cp.text = snapshotText cp.order cp.now (Access.applyAll e₀ (s.trace.take cp.performed))
  offset : cp.offset = (s.base ++ logText (s.log.take cp.logged)).length

section Untouched

variable {i : ι} {accesses more : List (Access ι)}

/-- Accesses and more accesses. -/
theorem untouched_append :
    Untouched i (accesses ++ more) ↔ Untouched i accesses ∧ Untouched i more := by
  simp only [Untouched, List.mem_append, or_imp, forall_and]

/-- The first of the accesses. -/
theorem Untouched.take (h : Untouched i accesses) (n : ℕ) : Untouched i (accesses.take n) :=
  fun a ha => h a (List.mem_of_mem_take ha)

/-- An access of another connection. -/
theorem untouched_singleton {a : Access ι} (h : a.owner ≠ some i) : Untouched i [a] := by
  simpa [Untouched] using h

end Untouched

variable [DecidableEq ι]

/-- The records of the command `i`. -/
def recordsOf (i : ι) (log : List (ι × List Bytes)) : List (List Bytes) :=
  (log.filter fun p => p.1 = i).map Prod.snd

section Records

variable {i j : ι} {log : List (ι × List Bytes)}

/-- Records and more records. -/
theorem recordsOf_append (more : List (ι × List Bytes)) :
    recordsOf i (log ++ more) = recordsOf i log ++ recordsOf i more := by
  simp [recordsOf]

/-- No record. -/
@[simp] theorem recordsOf_nil : recordsOf i [] = [] := rfl

/-- A record of the connection itself. -/
theorem recordsOf_self (record : List Bytes) : recordsOf i [(i, record)] = [record] := by
  simp [recordsOf]

/-- A record of another connection. -/
theorem recordsOf_of_ne (h : j ≠ i) (record : List Bytes) : recordsOf i [(j, record)] = [] := by
  simp [recordsOf, h]

/-- Without a record there is none further on. -/
theorem recordsOf_drop (h : recordsOf i log = []) (n : ℕ) : recordsOf i (log.drop n) = [] := by
  rw [← List.take_append_drop n log, recordsOf_append] at h
  exact (List.append_eq_nil_iff.mp h).2

end Records

/-- The effect of the command `i` is in the snapshot: its calls were made before it, and there is no
record of it behind the offset. -/
def InSnapshot (s : State ι) (cp : Checkpoint) (i : ι) : Prop :=
  ¬ Untouched i (s.trace.take cp.performed) ∧ Untouched i (s.trace.drop cp.performed) ∧
    recordsOf i (s.log.drop cp.logged) = []

/-- The effect of the command `i` is in the log: its calls were made after the snapshot, and there
is one record of it behind the offset. -/
def InLog (s : State ι) (cp : Checkpoint) (i : ι) (record : Option (List Bytes)) : Prop :=
  Untouched i (s.trace.take cp.performed) ∧
    ∃ r, record = some r ∧ recordsOf i (s.log.drop cp.logged) = [r]

/-! ## The invariant -/

/-- The history knows nothing of the command. -/
def Unused (s : State ι) (i : ι) : Prop := Untouched i s.trace ∧ recordsOf i s.log = []

/-- The temporary file of a rewrite holds the entries, and no command has made a call since. -/
structure Materialised (e₀ : StorageEngine) (s : State ι) (cp : Checkpoint) : Prop where
  performed : cp.performed ≤ s.trace.length
  logged : cp.logged = 0
  text : cp.text = snapshotText cp.order cp.now (Access.applyAll e₀ (s.trace.take cp.performed))
  offset : cp.offset = cp.text.length
  file : s.fs.read .aofTmp = some cp.text
  quiet : ∀ j, Untouched j (s.trace.drop cp.performed)

/-- What holds of a command by the phase it is in. -/
def Phase.Ok (e₀ : StorageEngine) (s : State ι) (i : ι) : Phase → Prop
  | .idle | .rewriting | .renamed | .invalidated | .leaving | .closed => Unused s i
  | .saving offset => Unused s i ∧ offset = s.contents.length
  | .snapshotSaved cp => Unused s i ∧ Cuts e₀ s cp ∧ cp.logged = s.log.length ∧
      ∀ j, Untouched j (s.trace.drop cp.performed)
  | .materialised cp => Unused s i ∧ Materialised e₀ s cp
  | .mutating _ changed rest => rest.Honest changed ∧ (changed = true → ¬ Untouched i s.trace)
  | .logged c | .finished c => c.changed = true → c.record.isSome = true ∧ ¬ Untouched i s.trace

/-- How a command stands to a checkpoint. One that has not finished is behind it. -/
def Phase.Placed (s : State ι) (cp : Checkpoint) (i : ι) : Phase → Prop
  | .mutating _ _ _ =>
    Untouched i (s.trace.take cp.performed) ∧ recordsOf i (s.log.drop cp.logged) = []
  | .logged c =>
    Untouched i (s.trace.take cp.performed) ∧ recordsOf i (s.log.drop cp.logged) = c.record.toList
  | .finished c =>
    (Untouched i (s.trace.drop cp.performed) ∧ recordsOf i (s.log.drop cp.logged) = []) ∨
    (Untouched i (s.trace.take cp.performed) ∧ recordsOf i (s.log.drop cp.logged) = c.record.toList)
  | _ => True

/-- The checkpoint is one of the log that is there: the rewrite that it comes from, or a `SAVE` whose
manifest is there. Not so in the window of a rewrite, and not without a path for the manifest, which
a rewrite then does not remove. -/
def State.Counts (env : Env) (s : State ι) (cp : Checkpoint) : Prop :=
  s.rewritten = some cp ∨
    cp ∈ s.checkpoints ∧ pathIsSafe env.config.persistence.manifestPath = true ∧
      ∀ i, (s.phase i).stale = false

/-- What holds between the calls: the barrier is tracked, the log is what was appended, and every
connection is where its phase says. -/
structure Inv (env : Env) (e₀ : StorageEngine) (s : State ι) : Prop where
  tracks : s.barrier.Tracks fun i => (s.phase i).mode
  contents : s.fs.read .aof = some s.contents
  attached : (∀ i, (s.phase i).detached = false) → s.aof.Attached s.fs s.contents
  storage : s.storage = Access.applyAll e₀ s.trace
  phases : ∀ i, (s.phase i).Ok e₀ s i
  rewritten : ∀ cp, s.rewritten = some cp → s.base = cp.text ∧ cp.logged = 0
  cuts : ∀ cp, s.Counts env cp → Cuts e₀ s cp
  placed : ∀ cp, s.Counts env cp → ∀ i, (s.phase i).Placed s cp i

/-! ## As the history goes on -/

/-- Accesses and records are added. -/
structure Extends (s s' : State ι) (ts : List (Access ι)) (ls : List (ι × List Bytes)) : Prop where
  trace : s'.trace = s.trace ++ ts
  log : s'.log = s.log ++ ls
  base : s'.base = s.base

section Extends

variable {e₀ : StorageEngine} {s s' : State ι} {ts : List (Access ι)} {ls : List (ι × List Bytes)}
  {cp : Checkpoint} {i : ι}

omit [DecidableEq ι] in
/-- A step that is not part of the history. -/
theorem Extends.nil (htrace : s'.trace = s.trace) (hlog : s'.log = s.log) (hbase : s'.base = s.base) :
    Extends s s' [] [] :=
  ⟨by rw [htrace, List.append_nil], by rw [hlog, List.append_nil], hbase⟩

omit [DecidableEq ι] in
/-- A checkpoint stays one while the log grows. -/
theorem Cuts.extend (h : Cuts e₀ s cp) (hx : Extends s s' ts ls) : Cuts e₀ s' cp where
  performed := by
    rw [hx.trace, List.length_append]
    exact h.performed.trans (Nat.le_add_right _ _)
  logged := by
    rw [hx.log, List.length_append]
    exact h.logged.trans (Nat.le_add_right _ _)
  text := by rw [hx.trace, List.take_append_of_le_length h.performed, h.text]
  offset := by rw [hx.log, hx.base, List.take_append_of_le_length h.logged, h.offset]

/-- A connection that has done nothing yet still has not, after a step of another. -/
theorem Unused.extend (h : Unused s i) (hx : Extends s s' ts ls) (hts : Untouched i ts)
    (hls : recordsOf i ls = []) : Unused s' i := by
  refine ⟨?_, ?_⟩
  · rw [hx.trace, untouched_append]
    exact ⟨h.1, hts⟩
  · rw [hx.log, recordsOf_append, h.2, hls]
    rfl

/-- A command that has not been used is on no side of any checkpoint. -/
theorem Unused.apart (h : Unused s i) (cp : Checkpoint) :
    Untouched i (s.trace.take cp.performed) ∧ recordsOf i (s.log.drop cp.logged) = [] :=
  ⟨h.1.take _, recordsOf_drop h.2 _⟩

/-- A command stays where it is. -/
theorem Phase.Placed.extend {p : Phase} (h : p.Placed s cp i) (hcuts : Cuts e₀ s cp)
    (hx : Extends s s' ts ls) (hts : Untouched i ts) (hls : recordsOf i ls = []) : p.Placed s' cp i := by
  have hbefore : s'.trace.take cp.performed = s.trace.take cp.performed := by
    rw [hx.trace, List.take_append_of_le_length hcuts.performed]
  have hafter : Untouched i (s.trace.drop cp.performed) → Untouched i (s'.trace.drop cp.performed) := by
    intro hu
    rw [hx.trace, List.drop_append_of_le_length hcuts.performed, untouched_append]
    exact ⟨hu, hts⟩
  have htail : recordsOf i (s'.log.drop cp.logged) = recordsOf i (s.log.drop cp.logged) := by
    rw [hx.log, List.drop_append_of_le_length hcuts.logged, recordsOf_append, hls, List.append_nil]
  cases p with
  | mutating | logged =>
    simp only [Phase.Placed, hbefore, htail]
    exact h
  | finished c =>
    simp only [Phase.Placed, hbefore, htail]
    exact h.imp_left fun hin => ⟨hafter hin.1, hin.2⟩
  | _ => trivial

/-- What a step of others leaves of the phase of a command: they add no call and no record of it,
and while it holds the barrier exclusively, none at all. -/
structure Spares (s s' : State ι) (ts : List (Access ι)) (ls : List (ι × List Bytes)) (i : ι) : Prop where
  phase : s'.phase i = s.phase i
  calls : Untouched i ts
  records : recordsOf i ls = []
  quiet : (s.phase i).mode = .exclusive →
    (∀ j, Untouched j ts) ∧ ls = [] ∧ s'.fs.read .aofTmp = s.fs.read .aofTmp

/-- What a phase says stays true after a step that spares the connection. -/
theorem Phase.Ok.extend {p : Phase} (h : p.Ok e₀ s i) (hx : Extends s s' ts ls)
    (hs : Spares s s' ts ls i) (hp : s.phase i = p) : p.Ok e₀ s' i := by
  have hquiet := hs.quiet
  rw [hp] at hquiet
  have hdrop : ∀ {n}, n ≤ s.trace.length → (∀ j, Untouched j ts) →
      (∀ j, Untouched j (s.trace.drop n)) → ∀ j, Untouched j (s'.trace.drop n) := by
    intro n hn hts hu j
    rw [hx.trace, List.drop_append_of_le_length hn, untouched_append]
    exact ⟨hu j, hts j⟩
  have htouched : ¬ Untouched i s.trace → ¬ Untouched i s'.trace := by
    intro hu hu'
    rw [hx.trace, untouched_append] at hu'
    exact hu hu'.1
  cases p with
  | idle | rewriting | renamed | invalidated | leaving | closed =>
    exact Unused.extend h hx hs.calls hs.records
  | saving offset =>
    obtain ⟨-, rfl, -⟩ := hquiet rfl
    refine ⟨h.1.extend hx hs.calls hs.records, ?_⟩
    rw [h.2, State.contents, State.contents, hx.base, hx.log, List.append_nil]
  | snapshotSaved cp =>
    obtain ⟨hts, rfl, -⟩ := hquiet rfl
    obtain ⟨hunused, hcuts, hlogged, hsince⟩ := h
    refine ⟨hunused.extend hx hs.calls hs.records, hcuts.extend hx, ?_, hdrop hcuts.performed hts hsince⟩
    rw [hx.log, List.append_nil, hlogged]
  | materialised cp =>
    obtain ⟨hts, -, hfile⟩ := hquiet rfl
    obtain ⟨hunused, hm⟩ := h
    refine ⟨hunused.extend hx hs.calls hs.records, ?_, hm.logged, ?_, hm.offset, ?_,
      hdrop hm.performed hts hm.quiet⟩
    · rw [hx.trace, List.length_append]
      exact hm.performed.trans (Nat.le_add_right _ _)
    · rw [hx.trace, List.take_append_of_le_length hm.performed, hm.text]
    · rw [hfile, hm.file]
  | mutating request changed rest => exact ⟨h.1, fun hc => htouched (h.2 hc)⟩
  | logged c | finished c => exact fun hc => ⟨(h hc).1, htouched (h hc).2⟩

end Extends

/-! ## One step -/

section Steps

variable {env : Env} {e₀ : StorageEngine} {s s' : State ι} {ts : List (Access ι)}
  {ls : List (ι × List Bytes)} {i : ι}

/-- A phase brings its mode. -/
theorem State.mode_setPhase (s : State ι) (i : ι) (p : Phase) :
    (fun j => ((s.setPhase i p).phase j).mode) = Function.update (fun j => (s.phase j).mode) i p.mode := by
  funext j
  by_cases hj : j = i
  · subst hj
    simp [State.setPhase]
  · simp [State.setPhase, hj]

/-- The connection is in its new phase. -/
@[simp] theorem State.phase_setPhase_self (s : State ι) (i : ι) (p : Phase) :
    (s.setPhase i p).phase i = p := Function.update_self _ _ _

/-- The others are where they were. -/
theorem State.phase_setPhase_of_ne (s : State ι) {i j : ι} (p : Phase) (hj : j ≠ i) :
    (s.setPhase i p).phase j = s.phase j := Function.update_of_ne hj _ _

omit [DecidableEq ι] in
/-- The log is closed only while its rewrite holds the barrier alone. -/
theorem Phase.exclusive_of_detached {p : Phase} (h : p.detached = true) : p.mode = .exclusive := by
  cases p <;> first | rfl | cases h

/-- A checkpoint that counts after a step did so before it. -/
theorem State.Counts.of_setPhase {t : State ι} {p : Phase} {cp : Checkpoint}
    (h : (t.setPhase i p).Counts env cp) (hphase : t.phase = s.phase)
    (hrewritten : t.rewritten = s.rewritten) (hcps : t.checkpoints = s.checkpoints)
    (hi : (s.phase i).stale = false) : s.Counts env cp := by
  rcases h with h | ⟨hcp, hsafe, hstale⟩
  · exact .inl (hrewritten ▸ h)
  · refine .inr ⟨hcps ▸ hcp, hsafe, fun j => ?_⟩
    by_cases hj : j = i
    · rw [hj, hi]
    · have hstalej := hstale j
      rwa [State.phase_setPhase_of_ne _ _ hj, hphase] at hstalej

namespace Inv

/-- A step that adds to the history: who is not spared is looked at. -/
theorem extend (h : Inv env e₀ s) (hx : Extends s s' ts ls) (hrewritten : s'.rewritten = s.rewritten)
    (hcounts : ∀ cp, s'.Counts env cp → s.Counts env cp)
    (htracks : s'.barrier.Tracks fun j => (s'.phase j).mode)
    (hcontents : s'.fs.read .aof = some s'.contents)
    (hattached : (∀ j, (s'.phase j).detached = false) → s'.aof.Attached s'.fs s'.contents)
    (hstorage : s'.storage = Access.applyAll e₀ s'.trace)
    (hall : ∀ j, Spares s s' ts ls j ∨
      ((s'.phase j).Ok e₀ s' j ∧ ∀ cp, s.Counts env cp → (s'.phase j).Placed s' cp j)) :
    Inv env e₀ s' where
  tracks := htracks
  contents := hcontents
  attached := hattached
  storage := hstorage
  phases j := by
    rcases hall j with hs | hself
    · rw [hs.phase]
      exact (h.phases j).extend hx hs rfl
    · exact hself.1
  rewritten cp hcp := by
    rw [hx.base]
    exact h.rewritten cp (hrewritten ▸ hcp)
  cuts cp hcp := (h.cuts cp (hcounts cp hcp)).extend hx
  placed cp hcp j := by
    have hcp := hcounts cp hcp
    rcases hall j with hs | hself
    · rw [hs.phase]
      exact (h.placed cp hcp j).extend (h.cuts cp hcp) hx hs.calls hs.records
    · exact hself.2 cp hcp

/-- Nobody holds the barrier exclusively, so the process is attached to the log. -/
theorem attached_of_not_exclusive (h : Inv env e₀ s) (hno : ∀ j, (s.phase j).mode ≠ .exclusive) :
    s.aof.Attached s.fs s.contents := by
  refine h.attached fun j => ?_
  by_contra hd
  exact hno j (Phase.exclusive_of_detached (Bool.not_eq_false _ ▸ hd))

/-- The command that holds the barrier exclusively is the only one that could be detached. -/
theorem attached_of_exclusive (h : Inv env e₀ s) (hi : (s.phase i).mode = .exclusive)
    (hd : (s.phase i).detached = false) : s.aof.Attached s.fs s.contents := by
  refine h.attached fun j => ?_
  by_cases hj : j = i
  · rw [hj, hd]
  · by_contra hdj
    have hfree := h.tracks.alone hi hj
    rw [Phase.exclusive_of_detached (Bool.not_eq_false _ ▸ hdj)] at hfree
    cases hfree

/-- Changing to a phase with the same hold on the barrier. -/
theorem tracks_of_mode_eq {p : Phase} (h : Inv env e₀ s) (hmode : p.mode = (s.phase i).mode) :
    s.barrier.Tracks (Function.update (fun j => (s.phase j).mode) i p.mode) := by
  rw [hmode, Function.update_eq_self i fun j => (s.phase j).mode]
  exact h.tracks

/-- A step of the command `i` while no other holds the barrier exclusively: it adds calls and records
of its own only, and goes on to the phase `p`. -/
theorem moveCounting {t : State ι} {p : Phase} (h : Inv env e₀ s)
    (hno : ∀ j ≠ i, (s.phase j).mode ≠ .exclusive) (hx : Extends s (t.setPhase i p) ts ls)
    (hphase : t.phase = s.phase) (hrewritten : t.rewritten = s.rewritten)
    (hcounts : ∀ cp, (t.setPhase i p).Counts env cp → s.Counts env cp)
    (hts : ∀ j ≠ i, Untouched j ts) (hls : ∀ j ≠ i, recordsOf j ls = [])
    (htracks : t.barrier.Tracks (Function.update (fun j => (s.phase j).mode) i p.mode))
    (hcontents : t.fs.read .aof = some t.contents)
    (hattached : p.detached = false → t.aof.Attached t.fs t.contents)
    (hstorage : t.storage = Access.applyAll e₀ t.trace) (hok : p.Ok e₀ (t.setPhase i p) i)
    (hplaced : ∀ cp, s.Counts env cp → p.Placed (t.setPhase i p) cp i) :
    Inv env e₀ (t.setPhase i p) := by
  refine h.extend hx hrewritten hcounts ?_ hcontents (fun hd => hattached ?_) hstorage fun j => ?_
  · rw [State.mode_setPhase, hphase]
    exact htracks
  · have hdi := hd i
    rwa [State.phase_setPhase_self] at hdi
  · by_cases hj : j = i
    · subst hj
      rw [State.phase_setPhase_self]
      exact .inr ⟨hok, hplaced⟩
    · refine .inl ⟨?_, hts j hj, hls j hj, fun he => absurd he (hno j hj)⟩
      rw [State.phase_setPhase_of_ne t p hj, hphase]

/-- **A step of the command `i`** that leaves the checkpoints as they are. -/
theorem move {t : State ι} {p : Phase} (h : Inv env e₀ s)
    (hno : ∀ j ≠ i, (s.phase j).mode ≠ .exclusive) (hx : Extends s (t.setPhase i p) ts ls)
    (hphase : t.phase = s.phase) (hrewritten : t.rewritten = s.rewritten)
    (hcps : t.checkpoints = s.checkpoints) (hstale : (s.phase i).stale = false)
    (hts : ∀ j ≠ i, Untouched j ts) (hls : ∀ j ≠ i, recordsOf j ls = [])
    (htracks : t.barrier.Tracks (Function.update (fun j => (s.phase j).mode) i p.mode))
    (hcontents : t.fs.read .aof = some t.contents)
    (hattached : p.detached = false → t.aof.Attached t.fs t.contents)
    (hstorage : t.storage = Access.applyAll e₀ t.trace) (hok : p.Ok e₀ (t.setPhase i p) i)
    (hplaced : ∀ cp, s.Counts env cp → p.Placed (t.setPhase i p) cp i) :
    Inv env e₀ (t.setPhase i p) :=
  h.moveCounting hno hx hphase hrewritten
    (fun _ hcp => hcp.of_setPhase hphase hrewritten hcps hstale) hts hls htracks hcontents hattached
    hstorage hok hplaced

/-! ### Write commands -/

/-- A command that begins. -/
theorem command {now : TimePoint} {args : List Bytes} (h : Inv env e₀ s)
    (hstep : s.command i now args = some s') : Inv env e₀ s' := by
  unfold State.command at hstep
  split at hstep
  case h_2 => cases hstep
  case h_1 program barrier hidle hprogram hlock =>
    cases hstep
    obtain ⟨htracks, hno⟩ := h.tracks.lockShared hlock
    have hunused := h.phases i
    rw [hidle] at hunused
    have hstale : (s.phase i).stale = false := by rw [hidle]; rfl
    obtain ⟨name, -, hmutation⟩ := Option.bind_eq_some_iff.mp hprogram
    exact h.move (fun j _ => hno j) (.nil rfl rfl rfl) rfl rfl rfl hstale (fun _ _ => nofun)
      (fun _ _ => rfl) htracks h.contents (fun _ => h.attached_of_not_exclusive hno) h.storage
      ⟨Mutation.honest_mutation hmutation, nofun⟩ fun cp _ => Unused.apart hunused cp

/-- A call of a command. If the command has changed something before, the call is not refused. -/
theorem perform {request : Request} {changed : Bool} {c : StorageCall} {next : c.Answer → Mutation}
    (h : Inv env e₀ s) (hphase : s.phase i = .mutating request changed (.call c next))
    (hgranted : changed = true → s.storage.grants request.now c = true) :
    Inv env e₀ (s.perform i request changed c next) := by
  have hshared : (s.phase i).mode = .shared := by rw [hphase]; rfl
  have hstale : (s.phase i).stale = false := by rw [hphase]; rfl
  have hno := h.tracks.not_exclusive hshared
  have hok := h.phases i
  rw [hphase] at hok
  have htouched : ¬ Untouched i (s.trace ++ [Access.call i request.now c]) := fun hu =>
    (untouched_append.mp hu).2 _ (List.mem_singleton_self _) rfl
  refine h.move (fun j _ => hno j) ⟨rfl, (List.append_nil _).symm, rfl⟩ rfl rfl rfl hstale
    (fun j hj => untouched_singleton ?_) (fun _ _ => rfl) (h.tracks_of_mode_eq hshared.symm) h.contents
    (fun _ => h.attached_of_not_exclusive hno) ?_ ⟨?_, fun _ => htouched⟩ fun cp hcp => ?_
  · simpa [Access.owner] using Ne.symm hj
  · rw [Access.applyAll_concat, ← h.storage]
    rfl
  · exact hok.1 _ fun hc => StorageEngine.refused_of_grants (hgranted hc)
  · have hplaced := h.placed cp hcp i
    rw [hphase] at hplaced
    have hbefore : (s.trace ++ [Access.call i request.now c]).take cp.performed
        = s.trace.take cp.performed := List.take_append_of_le_length (h.cuts cp hcp).performed
    exact ⟨hbefore ▸ hplaced.1, hplaced.2⟩

/-- The record is appended. -/
theorem persist {request : Request} {completion : Completion} (h : Inv env e₀ s)
    (hen : env.config.persistence.aofEnabled = true)
    (hphase : s.phase i = .mutating request completion.changed (.done completion.result completion.record))
    (hstep : s.persist env i completion = some s') : Inv env e₀ s' := by
  have hshared : (s.phase i).mode = .shared := by rw [hphase]; rfl
  have hstale : (s.phase i).stale = false := by rw [hphase]; rfl
  have hno := h.tracks.not_exclusive hshared
  have hatt := h.attached_of_not_exclusive hno
  have hself := h.phases i
  rw [hphase] at hself
  have hlogged : completion.changed = true → completion.record.isSome = true ∧ ¬ Untouched i s.trace :=
    fun hc => ⟨hself.1 hc, hself.2 hc⟩
  unfold State.persist at hstep
  split at hstep
  · next hnone =>
    cases hstep
    refine h.move (fun j _ => hno j) (.nil rfl rfl rfl) rfl rfl rfl hstale (fun _ _ => nofun) (fun _ _ => rfl)
      (h.tracks_of_mode_eq hshared.symm) h.contents (fun _ => hatt) h.storage hlogged fun cp hcp => ?_
    have hplaced := h.placed cp hcp i
    rw [hphase] at hplaced
    exact ⟨hplaced.1, by rw [hnone]; exact hplaced.2⟩
  · next record hrecord =>
    split at hstep
    · cases hstep
    · next status aof fs hrun =>
      obtain ⟨plan, -, hcalm, hlog⟩ := (Aof.spec_append hatt hen record).of_calmly hrun
      have hok : status.isOk = true := (hcalm rfl).2
      rw [if_pos hok] at hstep
      cases hstep
      have hatt' := hlog hok
      rw [show s.contents ++ encodeCommand record = s.base ++ logText (s.log ++ [(i, record)]) by
        simp [State.contents, logText]] at hatt'
      refine h.move (fun j _ => hno j) ⟨(List.append_nil _).symm, rfl, rfl⟩ rfl rfl rfl hstale
        (fun _ _ => nofun) (fun j hj => recordsOf_of_ne (Ne.symm hj) record) (h.tracks_of_mode_eq hshared.symm)
        hatt'.contents (fun _ => hatt') h.storage hlogged fun cp hcp => ?_
      have hplaced := h.placed cp hcp i
      rw [hphase] at hplaced
      refine ⟨hplaced.1, ?_⟩
      show recordsOf i ((s.log ++ [(i, record)]).drop cp.logged) = _
      rw [List.drop_append_of_le_length (h.cuts cp hcp).logged, recordsOf_append, hplaced.2,
        recordsOf_self, hrecord]
      rfl

/-- A command that ends. -/
theorem finish {completion : Completion} (h : Inv env e₀ s) (hphase : s.phase i = .logged completion) :
    Inv env e₀ (s.finish i completion) := by
  have hshared : (s.phase i).mode = .shared := by rw [hphase]; rfl
  have hstale : (s.phase i).stale = false := by rw [hphase]; rfl
  have hno := h.tracks.not_exclusive hshared
  have hok := h.phases i
  rw [hphase] at hok
  refine h.move (fun j _ => hno j) (.nil rfl rfl rfl) rfl rfl rfl hstale (fun _ _ => nofun) (fun _ _ => rfl)
    (h.tracks.unlockShared hshared) h.contents (fun _ => h.attached_of_not_exclusive hno) h.storage hok
    fun cp hcp => Or.inr ?_
  have hplaced := h.placed cp hcp i
  rw [hphase] at hplaced
  exact hplaced

/-! ### `SAVE` -/

/-- Next to one that holds the barrier alone there is no other. -/
theorem not_exclusive_of_ne (h : Inv env e₀ s) (hi : (s.phase i).mode = .exclusive) :
    ∀ j ≠ i, (s.phase j).mode ≠ .exclusive := by
  intro j hj he
  rw [h.tracks.alone hi hj] at he
  cases he

/-- A `SAVE` that takes the barrier. -/
theorem save (h : Inv env e₀ s) (hstep : s.save i = some s') : Inv env e₀ s' := by
  unfold State.save at hstep
  split at hstep
  case h_2 => cases hstep
  case h_1 barrier hidle hlock =>
    cases hstep
    obtain ⟨htracks, hfree⟩ := h.tracks.lock hlock
    have hno : ∀ j, (s.phase j).mode ≠ .exclusive := fun j he => by rw [hfree j] at he; cases he
    have hatt := h.attached_of_not_exclusive hno
    have hunused := h.phases i
    rw [hidle] at hunused
    have hstale : (s.phase i).stale = false := by rw [hidle]; rfl
    exact h.move (fun j _ => hno j) (.nil rfl rfl rfl) rfl rfl rfl hstale (fun _ _ => nofun)
      (fun _ _ => rfl) htracks h.contents (fun _ => hatt) h.storage ⟨hunused, hatt.size⟩ fun _ _ => trivial

/-- A snapshot cuts the history where it is taken. -/
theorem snapshotText_now (h : Inv env e₀ s) (order : IterationOrder) (now : TimePoint) :
    snapshotText order now s.storage = snapshotText order now
      (Access.applyAll e₀ ((s.trace ++ [Access.snapshot now]).take s.trace.length)) := by
  rw [List.take_left, ← h.storage]

/-- Without a safe path for the snapshot, the storage is not looked at. -/
theorem storage_of_unsafe {env : Env} {store : SnapshotStore} {order : IterationOrder} {now : TimePoint}
    {storage storage' : StorageEngine} {aof : Aof} {fs fs' : FileSystem FileName} {status : Status}
    (hpath : pathIsSafe store.path = false)
    (hrun : calmly (store.syncAndSave env order now storage aof) fs = some ((status, storage'), fs')) :
    storage' = storage ∧ fs' = fs := by
  have hsave : store.syncAndSave env order now storage aof ⟨fs, []⟩
      = .ok (.invalidArgument (ascii "invalid snapshot path"), storage) ⟨fs, []⟩ := by
    simp only [SnapshotStore.syncAndSave, SnapshotStore.saveSnapshotFile, hpath, Aof.sync]
    cases aof.fd <;> rfl
  rw [calmly, hsave] at hrun
  cases hrun
  exact ⟨rfl, rfl⟩

/-- A `SAVE` that writes its snapshot. -/
theorem saveSnapshot {offset : ℕ} {order : IterationOrder} {now : TimePoint} (h : Inv env e₀ s)
    (hphase : s.phase i = .saving offset)
    (hstep : s.saveSnapshot env i offset order now = some s') : Inv env e₀ s' := by
  have hexclusive : (s.phase i).mode = .exclusive := by rw [hphase]; rfl
  have hstale : (s.phase i).stale = false := by rw [hphase]; rfl
  have hno := h.not_exclusive_of_ne hexclusive
  have hatt := h.attached_of_exclusive hexclusive (by rw [hphase]; rfl)
  have hself := h.phases i
  rw [hphase] at hself
  obtain ⟨hunused, hoffset⟩ := hself
  unfold State.saveSnapshot at hstep
  split at hstep
  · cases hstep
  · next status storage fs hrun =>
    obtain ⟨plan, hcalm, hout⟩ := (SnapshotStore.spec_syncAndSave order now s.storage s.aof).of_calmly hrun
    cases hok : status.isOk with
    | true =>
      rw [if_pos hok] at hstep
      cases hstep
      rcases hout with ⟨-, hstorage, -, hkeeps, hread⟩ | ⟨hfail, -⟩
      swap
      · rw [show status.isOk = false from hfail] at hok
        cases hok
      simp only at hstorage
      have hatt' := hatt.keeps hkeeps (by decide)
      have hunowned : ∀ j, Untouched j [(Access.snapshot now : Access ι)] := fun j =>
        untouched_singleton nofun
      refine h.move hno ⟨rfl, (List.append_nil _).symm, rfl⟩ rfl rfl rfl hstale (fun j _ => hunowned j)
        (fun _ _ => rfl) (h.tracks_of_mode_eq hexclusive.symm) hatt'.contents (fun _ => hatt') ?_
        ⟨?_, ⟨?_, le_rfl, ?_, ?_⟩, rfl, fun j => ?_⟩ fun _ _ => trivial
      · rw [Access.applyAll_concat, ← h.storage, hstorage]
        rfl
      · exact hunused.extend ⟨rfl, (List.append_nil _).symm, rfl⟩ (hunowned i) rfl
      · exact (List.prefix_append s.trace [Access.snapshot now]).length_le
      · exact (congrArg (Option.getD · []) hread).trans (h.snapshotText_now order now)
      · show offset = (s.base ++ logText (s.log.take s.log.length)).length
        rw [List.take_length, hoffset]
        rfl
      · show Untouched j ((s.trace ++ [Access.snapshot now]).drop s.trace.length)
        rw [List.drop_left]
        exact hunowned j
    | false =>
      rw [hok] at hstep
      cases hstep
      -- all calls succeed, so the path was not safe
      have hpath : pathIsSafe (SnapshotStore.ofConfig env.config).path = false := by
        by_contra hsafe
        have hyes := (hcalm rfl).2 (by simpa using hsafe)
        rw [show status.isOk = true from hyes] at hok
        cases hok
      obtain ⟨hstorage, hfs⟩ := storage_of_unsafe hpath hrun
      refine h.move hno (.nil rfl rfl rfl) rfl rfl rfl hstale (fun _ _ => nofun) (fun _ _ => rfl)
        (h.tracks_of_mode_eq hexclusive.symm) ?_ (fun _ => ?_) ?_ hunused fun _ _ => trivial
      · exact hfs ▸ h.contents
      · exact hfs ▸ hatt
      · exact hstorage ▸ h.storage

/-- A command that does not hold the barrier, when nothing has happened since the checkpoint. -/
theorem placed_of_free {p : Phase} {cp : Checkpoint} (hfree : p.mode = .free)
    (hcalls : Untouched i (s.trace.drop cp.performed))
    (hrecords : recordsOf i (s.log.drop cp.logged) = []) : p.Placed s cp i := by
  cases p with
  | finished c => exact .inl ⟨hcalls, hrecords⟩
  | mutating | logged => cases hfree
  | _ => trivial

/-- From now on the checkpoint counts. -/
theorem addCheckpoint {cp : Checkpoint} (h : Inv env e₀ s) (hcuts : Cuts e₀ s cp)
    (hplaced : ∀ j, (s.phase j).Placed s cp j) :
    Inv env e₀ { s with checkpoints := cp :: s.checkpoints } := by
  have hx : Extends s { s with checkpoints := cp :: s.checkpoints } [] [] := .nil rfl rfl rfl
  have hcounts : ∀ cp', State.Counts env { s with checkpoints := cp :: s.checkpoints } cp' →
      cp' = cp ∨ s.Counts env cp' := by
    rintro cp' (hrewritten | ⟨hcp', hvalid⟩)
    · exact .inr (.inl hrewritten)
    · exact (List.mem_cons.mp hcp').imp_right fun hmem => .inr ⟨hmem, hvalid⟩
  refine ⟨h.tracks, h.contents, h.attached, h.storage, fun j => ?_, h.rewritten, fun cp' hcp' => ?_,
    fun cp' hcp' j => ?_⟩
  · exact (h.phases j).extend hx ⟨rfl, nofun, rfl, fun _ => ⟨fun _ => nofun, rfl, rfl⟩⟩ rfl
  · rcases hcounts cp' hcp' with rfl | hcp'
    · exact hcuts.extend hx
    · exact (h.cuts cp' hcp').extend hx
  · rcases hcounts cp' hcp' with rfl | hcp'
    · exact (hplaced j).extend hcuts hx nofun rfl
    · exact (h.placed cp' hcp' j).extend (h.cuts cp' hcp') hx nofun rfl

/-- A `SAVE` that writes its manifest. -/
theorem saveManifest {cp : Checkpoint} {now : TimePoint} (h : Inv env e₀ s)
    (hphase : s.phase i = .snapshotSaved cp)
    (hstep : s.saveManifest env i cp now = some s') : Inv env e₀ s' := by
  have hexclusive : (s.phase i).mode = .exclusive := by rw [hphase]; rfl
  have hstale : (s.phase i).stale = false := by rw [hphase]; rfl
  have hno := h.not_exclusive_of_ne hexclusive
  have hatt := h.attached_of_exclusive hexclusive (by rw [hphase]; rfl)
  have hself := h.phases i
  rw [hphase] at hself
  obtain ⟨hunused, hcuts, hlogged, hquiet⟩ := hself
  have hsep := SnapshotStore.separate_ofConfig env.config
  have htmp := hsep.tmp_ne
  have hmanifest := hsep.ne
  simp only [List.mem_cons, not_or] at htmp hmanifest
  unfold State.saveManifest at hstep
  dsimp only at hstep
  split at hstep
  · cases hstep
  · next status fs hrun =>
    obtain ⟨plan, -, hout⟩ := (SnapshotStore.spec_writeManifest _).of_calmly hrun
    have hkeeps : Keeps [(SnapshotStore.ofConfig env.config).manifestTmpFile,
        (SnapshotStore.ofConfig env.config).manifestFile] s.fs fs := by
      rcases hout with ⟨-, hkeeps, -⟩ | ⟨-, hkeeps⟩
      · exact hkeeps
      · exact hkeeps.mono (by simp)
    have hatt' := hatt.keeps hkeeps (by simp [Ne.symm htmp.1, Ne.symm hmanifest.1])
    -- but for the new checkpoint, both outcomes are the same
    have hleave : Inv env e₀ ({ s with fs }.setPhase i .leaving) :=
      h.move hno (.nil rfl rfl rfl) rfl rfl rfl hstale (fun _ _ => nofun) (fun _ _ => rfl)
        (h.tracks_of_mode_eq hexclusive.symm) hatt'.contents (fun _ => hatt') h.storage hunused
        fun _ _ => trivial
    split_ifs at hstep
    · cases hstep
      refine hleave.addCheckpoint (hcuts.extend (.nil rfl rfl rfl)) fun j => ?_
      by_cases hj : j = i
      · subst hj
        rw [State.phase_setPhase_self]
        trivial
      · rw [State.phase_setPhase_of_ne _ _ hj]
        refine placed_of_free (h.tracks.alone hexclusive hj) (hquiet j) ?_
        show recordsOf j (s.log.drop cp.logged) = []
        rw [hlogged, List.drop_length, recordsOf_nil]
    · cases hstep
      exact hleave

/-! ### `BGREWRITEAOF` -/

/-- A rewrite that takes the barrier. -/
theorem rewrite (h : Inv env e₀ s) (hstep : s.rewrite env i = some s') : Inv env e₀ s' := by
  unfold State.rewrite at hstep
  split at hstep
  case h_2 => cases hstep
  case h_1 barrier hidle hlock =>
    split_ifs at hstep
    cases hstep
    obtain ⟨htracks, hfree⟩ := h.tracks.lock hlock
    have hno : ∀ j, (s.phase j).mode ≠ .exclusive := fun j he => by rw [hfree j] at he; cases he
    have hunused := h.phases i
    rw [hidle] at hunused
    have hstale : (s.phase i).stale = false := by rw [hidle]; rfl
    exact h.move (fun j _ => hno j) (.nil rfl rfl rfl) rfl rfl rfl hstale (fun _ _ => nofun)
      (fun _ _ => rfl) htracks h.contents (fun _ => h.attached_of_not_exclusive hno) h.storage hunused fun _ _ => trivial

/-- A rewrite that copies the keyspace into its file. -/
theorem materialise {order : IterationOrder} {now : TimePoint} (h : Inv env e₀ s)
    (hphase : s.phase i = .rewriting) (hstep : s.materialise env i order now = some s') : Inv env e₀ s' := by
  have hexclusive : (s.phase i).mode = .exclusive := by rw [hphase]; rfl
  have hstale : (s.phase i).stale = false := by rw [hphase]; rfl
  have hno := h.not_exclusive_of_ne hexclusive
  have hatt := h.attached_of_exclusive hexclusive (by rw [hphase]; rfl)
  have hunused := h.phases i
  rw [hphase] at hunused
  unfold State.materialise at hstep
  split at hstep
  · cases hstep
  · next status aof storage fs hrun =>
    obtain ⟨plan, hkeeps, -, hcalm, hout⟩ := (Aof.spec_materialise order now s.aof s.storage).of_calmly hrun
    have hok : status.isOk = true := (hcalm rfl).2
    obtain ⟨heq, hread⟩ := hout hok
    cases heq
    rw [if_pos hok] at hstep
    cases hstep
    have htext : (fs.read .aofTmp).getD [] = snapshotText order now s.storage :=
      congrArg (Option.getD · []) hread
    have hatt' := hatt.keeps hkeeps (by decide)
    have hunowned : ∀ j, Untouched j [(Access.snapshot now : Access ι)] := fun j =>
      untouched_singleton nofun
    refine h.move hno ⟨rfl, (List.append_nil _).symm, rfl⟩ rfl rfl rfl hstale (fun j _ => hunowned j)
      (fun _ _ => rfl) (h.tracks_of_mode_eq hexclusive.symm) hatt'.contents (fun _ => hatt') ?_
      ⟨?_, ?_, rfl, ?_, rfl, ?_, fun j => ?_⟩ fun _ _ => trivial
    · rw [Access.applyAll_concat, ← h.storage]
      rfl
    · exact Unused.extend hunused ⟨rfl, (List.append_nil _).symm, rfl⟩ (hunowned i) rfl
    · exact (List.prefix_append s.trace [Access.snapshot now]).length_le
    · exact htext.trans (h.snapshotText_now order now)
    · show fs.read .aofTmp = some ((fs.read .aofTmp).getD [])
      rw [htext]
      exact hread
    · show Untouched j ((s.trace ++ [Access.snapshot now]).drop s.trace.length)
      rw [List.drop_left]
      exact hunowned j

/-- The log is replaced: the history of its records begins anew, behind the checkpoint. -/
theorem swap {cp : Checkpoint} (h : Inv env e₀ s) (hphase : s.phase i = .materialised cp)
    (hstep : s.swap i cp = some s') : Inv env e₀ s' := by
  have hexclusive : (s.phase i).mode = .exclusive := by rw [hphase]; rfl
  have hself := h.phases i
  rw [hphase] at hself
  obtain ⟨hunused, hm⟩ := hself
  unfold State.swap at hstep
  split at hstep
  · cases hstep
  · next status aof fs hrun =>
    obtain ⟨plan, hcalm, hout⟩ :=
      (Aof.spec_swap s.aof (Keeps.refl [.aofTmp] s.fs) hm.file).of_calmly hrun
    have hok : status.isOk = true := (hcalm rfl).2
    rw [if_pos hok] at hstep
    cases hstep
    rcases hout with ⟨-, -, -, hread⟩ | ⟨hfail, -⟩
    swap
    · rw [show status.isOk = false from hfail] at hok
      cases hok
    -- the manifest is about the old log, so of the checkpoints the new one only counts
    have honly : ∀ cp', State.Counts env (State.setPhase { s with
          aof, fs, base := cp.text, log := [], rewritten := some cp } i .renamed) cp' → cp' = cp := by
      rintro cp' (hrewritten | ⟨-, -, hstale⟩)
      · exact (Option.some.inj hrewritten).symm
      · have hi := hstale i
        rw [State.phase_setPhase_self] at hi
        cases hi
    refine ⟨?_, ?_, fun hd => ?_, h.storage, fun j => ?_, fun cp' hcp' => ?_, fun cp' hcp' => ?_,
      fun cp' hcp' j => ?_⟩
    · rw [State.mode_setPhase]
      exact h.tracks_of_mode_eq hexclusive.symm
    · show fs.read .aof = some (cp.text ++ [])
      rw [List.append_nil]
      exact hread
    · have hdi := hd i
      rw [State.phase_setPhase_self] at hdi
      cases hdi
    · by_cases hj : j = i
      · subst hj
        rw [State.phase_setPhase_self]
        exact ⟨hunused.1, rfl⟩
      · rw [State.phase_setPhase_of_ne _ _ hj]
        have hokj := h.phases j
        have hfree := h.tracks.alone hexclusive hj
        show (s.phase j).Ok e₀ _ j
        cases hpj : s.phase j <;> rw [hpj] at hokj hfree
        case idle | closed => exact ⟨hokj.1, rfl⟩
        case finished => exact hokj
        all_goals cases hfree
    · obtain rfl := Option.some.inj hcp'
      exact ⟨rfl, hm.logged⟩
    · obtain rfl := honly cp' hcp'
      refine ⟨hm.performed, by rw [hm.logged]; exact Nat.zero_le _, hm.text, ?_⟩
      show cp'.offset = (cp'.text ++ logText (([] : List (ι × List Bytes)).take cp'.logged)).length
      rw [hm.offset, List.take_nil]
      simp [logText]
    · obtain rfl := honly cp' hcp'
      by_cases hj : j = i
      · subst hj
        rw [State.phase_setPhase_self]
        trivial
      · rw [State.phase_setPhase_of_ne _ _ hj]
        refine placed_of_free (h.tracks.alone hexclusive hj) (hm.quiet j) ?_
        show recordsOf j (([] : List (ι × List Bytes)).drop cp'.logged) = []
        rw [List.drop_nil, recordsOf_nil]

/-- A rewrite that removes the manifest. -/
theorem removeManifest (h : Inv env e₀ s) (hphase : s.phase i = .renamed)
    (hstep : s.removeManifest env i = some s') : Inv env e₀ s' := by
  have hexclusive : (s.phase i).mode = .exclusive := by rw [hphase]; rfl
  have hunused := h.phases i
  rw [hphase] at hunused
  unfold State.removeManifest at hstep
  split at hstep
  · cases hstep
  · next fs hrun =>
    cases hstep
    obtain ⟨plan, -, hread, hcalm⟩ :=
      (Aof.spec_removeManifest _ (Keeps.refl [.aof, .aofTmp] s.fs) h.contents).of_calmly hrun
    refine h.moveCounting (h.not_exclusive_of_ne hexclusive) (.nil rfl rfl rfl) rfl rfl ?_
      (fun _ _ => nofun) (fun _ _ => rfl) (h.tracks_of_mode_eq hexclusive.symm) hread nofun h.storage hunused
      fun _ _ => trivial
    -- with a safe path the manifest is gone, and the checkpoints with it
    rintro cp (hrewritten | ⟨hcp, hsafe, -⟩)
    · exact .inl hrewritten
    · have hnone : fs.read (SnapshotStore.ofConfig env.config).manifestFile = none := by
        have hpath : env.config.persistence.manifestPath ≠ [] := by
          intro hnil
          rw [hnil] at hsafe
          cases hsafe
        rw [(SnapshotStore.ofConfig_manifest hpath).1]
        exact (hcalm rfl).2 hsafe
      simp only [State.setPhase, FileSystem.has, hnone, Option.isSome_none, Bool.false_eq_true,
        if_false, List.not_mem_nil] at hcp

/-- A rewrite that opens the new log. -/
theorem resume (h : Inv env e₀ s) (hphase : s.phase i = .invalidated)
    (hstep : s.resume env i = some s') : Inv env e₀ s' := by
  have hexclusive : (s.phase i).mode = .exclusive := by rw [hphase]; rfl
  have hstale : (s.phase i).stale = false := by rw [hphase]; rfl
  have hunused := h.phases i
  rw [hphase] at hunused
  unfold State.resume at hstep
  split at hstep
  · cases hstep
  · next status aof fs hrun =>
    cases hstep
    obtain ⟨plan, -, hread, hcalm⟩ := (Aof.spec_resume _ s.aof h.contents).of_calmly hrun
    exact h.move (h.not_exclusive_of_ne hexclusive) (.nil rfl rfl rfl) rfl rfl rfl hstale (fun _ _ => nofun)
      (fun _ _ => rfl) (h.tracks_of_mode_eq hexclusive.symm) hread (fun _ => (hcalm rfl).2.2) h.storage
      hunused fun _ _ => trivial

/-- The end of `SAVE` and `BGREWRITEAOF`. -/
theorem leave (h : Inv env e₀ s) (hphase : s.phase i = .leaving) : Inv env e₀ (s.leave i) := by
  have hexclusive : (s.phase i).mode = .exclusive := by rw [hphase]; rfl
  have hstale : (s.phase i).stale = false := by rw [hphase]; rfl
  have hunused := h.phases i
  rw [hphase] at hunused
  exact h.move (h.not_exclusive_of_ne hexclusive) (.nil rfl rfl rfl) rfl rfl rfl hstale (fun _ _ => nofun)
    (fun _ _ => rfl) (h.tracks.unlock hexclusive) h.contents
    (fun _ => h.attached_of_exclusive hexclusive (by rw [hphase]; rfl)) h.storage hunused
    fun _ _ => trivial

/-- A read. -/
theorem read (h : Inv env e₀ s) (now : TimePoint) (r : ReadCall) : Inv env e₀ (s.read now r) := by
  have hunowned : ∀ j, Untouched j [(Access.read now r : Access ι)] := fun j =>
    untouched_singleton nofun
  have hx : Extends s (s.read now r) [.read now r] [] := ⟨rfl, (List.append_nil _).symm, rfl⟩
  refine h.extend hx rfl (fun _ hcp => hcp) h.tracks h.contents h.attached ?_ fun j =>
    .inl ⟨rfl, hunowned j, rfl, fun _ => ⟨hunowned, rfl, rfl⟩⟩
  show r.apply now s.storage = Access.applyAll e₀ (s.trace ++ [.read now r])
  rw [Access.applyAll_concat, ← h.storage]
  rfl

end Inv

/-- A command that has changed something is granted its next call. -/
def granted (s : State ι) : Action ι → Bool
  | .proceed i _ _ =>
    match s.phase i with
    | .mutating request true (.call c _) => s.storage.grants request.now c
    | _ => true
  | _ => true

namespace Inv

/-- The next step of a connection. -/
theorem proceed {order : IterationOrder} {now : TimePoint} (h : Inv env e₀ s)
    (hen : env.config.persistence.aofEnabled = true)
    (hgranted : granted s (.proceed i order now) = true)
    (hstep : s.proceed env i order now = some s') : Inv env e₀ s' := by
  unfold State.proceed at hstep
  split at hstep
  case h_1 | h_2 | h_3 => cases hstep
  case h_4 request changed c next hphase =>
    cases hstep
    refine h.perform hphase ?_
    rintro rfl
    simpa only [granted, hphase] using hgranted
  case h_5 request changed result record hphase => exact h.persist hen hphase hstep
  case h_6 completion hphase => cases hstep; exact h.finish hphase
  case h_7 offset hphase => exact h.saveSnapshot hphase hstep
  case h_8 cp hphase => exact h.saveManifest hphase hstep
  case h_9 hphase => exact h.materialise hphase hstep
  case h_10 cp hphase => exact h.swap hphase hstep
  case h_11 hphase => exact h.removeManifest hphase hstep
  case h_12 hphase => exact h.resume hphase hstep
  case h_13 hphase => cases hstep; exact h.leave hphase

/-- **Every granted step keeps the invariant.** -/
theorem next {a : Action ι} (h : Inv env e₀ s) (hen : env.config.persistence.aofEnabled = true)
    (hgranted : granted s a = true) : Inv env e₀ (s.next env a) := by
  unfold State.next
  cases hstep : s.step env a with
  | none => exact h
  | some s' =>
    rw [Option.getD_some]
    cases a with
    | command i now args => exact h.command hstep
    | save i => exact h.save hstep
    | rewrite i => exact h.rewrite hstep
    | proceed i order now => exact h.proceed hen hgranted hstep
    | read now r => cases hstep; exact h.read now r

end Inv

end Steps

/-- The log has been opened, and no command has begun. -/
structure State.Started (env : Env) (s : State ι) : Prop where
  enabled : env.config.persistence.aofEnabled = true
  attached : s.aof.Attached s.fs s.base
  barrier : s.barrier = .unlocked
  idle : ∀ i, s.phase i = .idle
  trace : s.trace = []
  log : s.log = []
  rewritten : s.rewritten = none
  checkpoints : s.checkpoints = []

/-- It holds of a server that has just started. -/
theorem Inv.of_started {env : Env} {s : State ι} (h : s.Started env) : Inv env s.storage s := by
  have hcontents : s.contents = s.base := by
    rw [State.contents, h.log]
    exact List.append_nil _
  have hnone : ∀ cp, ¬ s.Counts env cp := by
    rintro cp (hcp | ⟨hcp, -⟩)
    · rw [h.rewritten] at hcp
      cases hcp
    · rw [h.checkpoints] at hcp
      cases hcp
  refine ⟨?_, ?_, fun _ => ?_, ?_, fun i => ?_, fun cp hcp => absurd (.inl hcp) (hnone cp),
    fun cp hcp => absurd hcp (hnone cp), fun cp hcp => absurd hcp (hnone cp)⟩
  · rw [h.barrier]
    simp only [h.idle]
    exact .unlocked
  · rw [hcontents, h.attached.contents]
  · rw [hcontents]
    exact h.attached
  · rw [h.trace]
    rfl
  · rw [h.idle]
    refine ⟨?_, ?_⟩
    · rw [h.trace]
      exact nofun
    · rw [h.log, recordsOf_nil]

/-! ## Concrete runs -/

/-- A process that has opened an empty log. -/
def opened (env : Env) : State ι where
  storage := Recovery.freshStorage env
  aof := { fd := some 0 }
  fs := openedFiles
  barrier := .unlocked
  phase := fun _ => .idle
  trace := []
  base := []
  log := []
  rewritten := none
  checkpoints := []

omit [DecidableEq ι] in
/-- A server with an empty log has just started. -/
theorem started_opened {env : Env} (hen : env.config.persistence.aofEnabled = true) :
    (opened env : State ι).Started env :=
  ⟨hen, ⟨⟨0, rfl, rfl⟩, rfl, rfl⟩, rfl, fun _ => rfl, rfl, rfl, rfl, rfl⟩

/-- The next `n` steps of a command. -/
def steps (i : ι) (n : ℕ) : List (Action ι) := List.replicate n (.proceed i .listed 0)

end VeloxDb.Concurrency
