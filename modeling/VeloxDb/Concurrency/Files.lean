import VeloxDb.Concurrency.Checkpoints

/-!
# The files of a checkpoint

A `SAVE` leaves a snapshot and a manifest behind, and a rewrite the log. The history of the machine
says of every checkpoint which text and which offset it has; here the files are compared with it.
There are two windows. Between the two renames of a `SAVE` the snapshot is newer than the manifest,
and between the rename and the removal of a rewrite the manifest is older than the log. At all other
times the manifest and the snapshot are those of the latest checkpoint, and every command is counted
once by it.
-/

namespace VeloxDb.Concurrency

open FileProgram FileSystem Recovery Resp

variable {ι : Type}

/-- The snapshot and the manifest are those of the checkpoint. -/
structure OnDisk (env : Env) (fs : FileSystem FileName) (cp : Checkpoint) : Prop where
  snapshot : fs.read .snapshot = some cp.text
  manifest : ∃ created, fs.read (SnapshotStore.ofConfig env.config).manifestFile
    = some (manifestText env ⟨(SnapshotStore.ofConfig env.config).path, env.config.persistence.aofPath,
        cp.offset, created⟩)

/-- How the files stand to the history; `fs₀` are those at the start. -/
structure Filed (env : Env) (fs₀ : FileSystem FileName) (s : State ι) : Prop where
  latest : (∀ i, (s.phase i).unmarked = false) → ∀ cp ∈ s.checkpoints.head?, OnDisk env s.fs cp
  start : (∀ i, (s.phase i).unmarked = false) → s.checkpoints = [] → ∀ m, Names env s.fs m →
    Names env fs₀ m ∧ s.fs.read .snapshot = fs₀.read .snapshot
  snapshot : ∀ i cp, s.phase i = .snapshotSaved cp → s.fs.read .snapshot = some cp.text
  safe : s.checkpoints ≠ [] → pathIsSafe (SnapshotStore.ofConfig env.config).manifestPath = true

/-! ## Steps that leave these files alone -/

/-- The snapshot and the manifest are as they were. -/
structure SameFiles (env : Env) (fs fs' : FileSystem FileName) : Prop where
  snapshot : fs'.read .snapshot = fs.read .snapshot
  manifest : fs'.read (SnapshotStore.ofConfig env.config).manifestFile
    = fs.read (SnapshotStore.ofConfig env.config).manifestFile

section SameFiles

variable {env : Env} {fs fs' fs₀ : FileSystem FileName} {cp : Checkpoint} {m : Manifest}

/-- Nothing has changed. -/
theorem SameFiles.refl (env : Env) (fs : FileSystem FileName) : SameFiles env fs fs := ⟨rfl, rfl⟩

/-- The manifest is not one of the files of the log. -/
theorem SameFiles.of_keeps {names : List FileName} (h : Keeps names fs fs')
    (hnames : names ⊆ [.aof, .aofTmp]) : SameFiles env fs fs' := by
  have hne := (SnapshotStore.separate_ofConfig env.config).ne
  refine ⟨h.read fun hmem => ?_, h.read fun hmem => hne ?_⟩
  · have hlog := hnames hmem
    simp at hlog
  · have hlog := hnames hmem
    simp only [List.mem_cons, List.not_mem_nil, or_false] at hlog ⊢
    exact hlog.elim .inl fun htmp => .inr (.inl htmp)

/-- A checkpoint stays on disk while the files stay. -/
theorem SameFiles.onDisk (h : SameFiles env fs fs') (hcp : OnDisk env fs cp) : OnDisk env fs' cp :=
  ⟨h.snapshot.trans hcp.snapshot, hcp.manifest.imp fun _ hread => h.manifest.trans hread⟩

/-- A manifest names the same while the files stay. -/
theorem SameFiles.names (h : SameFiles env fs fs') (hm : Names env fs' m) : Names env fs m :=
  ⟨h.manifest ▸ hm.read, hm.snapshot, hm.aof⟩

end SameFiles

variable [DecidableEq ι]

/-- The command `i` takes a step that leaves the files of the checkpoints alone. -/
structure Quiet (env : Env) (s s' : State ι) (i : ι) : Prop where
  phase : ∃ p : Phase, s'.phase = Function.update s.phase i p ∧ p.unmarked = false
  checkpoints : s'.checkpoints = s.checkpoints
  files : SameFiles env s.fs s'.fs

section Steps

variable {env : Env} {e₀ : StorageEngine} {fs₀ : FileSystem FileName} {s s' : State ι} {i : ι}

/-- A step to the phase `p`. -/
theorem Quiet.of_setPhase {t : State ι} {p : Phase} (hphase : t.phase = s.phase)
    (hcps : t.checkpoints = s.checkpoints) (hfiles : SameFiles env s.fs t.fs)
    (hp : p.unmarked = false) : Quiet env s (t.setPhase i p) i :=
  ⟨⟨p, by rw [State.setPhase, hphase], hp⟩, hcps, hfiles⟩

/-- It stays true after a step that writes neither file. -/
theorem Filed.of_quiet (h : Filed env fs₀ s) (hi : (s.phase i).unmarked = false)
    (hq : Quiet env s s' i) : Filed env fs₀ s' := by
  obtain ⟨p, hphase, hp⟩ := hq.phase
  have hother : ∀ {j}, j ≠ i → s'.phase j = s.phase j := fun hj => by
    rw [hphase, Function.update_of_ne hj]
  have hmarked : (∀ j, (s'.phase j).unmarked = false) → ∀ j, (s.phase j).unmarked = false := by
    intro hall j
    by_cases hj : j = i
    · rw [hj, hi]
    · rw [← hother hj]
      exact hall j
  refine ⟨fun hall cp hcp => ?_, fun hall hnil m hm => ?_, fun j cp hj => ?_, fun hne => ?_⟩
  · rw [hq.checkpoints] at hcp
    exact hq.files.onDisk (h.latest (hmarked hall) cp hcp)
  · rw [hq.checkpoints] at hnil
    obtain ⟨hm₀, hsnapshot⟩ := h.start (hmarked hall) hnil m (hq.files.names hm)
    exact ⟨hm₀, hq.files.snapshot.trans hsnapshot⟩
  · by_cases hji : j = i
    · rw [hji, hphase, Function.update_self] at hj
      rw [hj] at hp
      cases hp
    · exact hq.files.snapshot.trans (h.snapshot j cp (hother hji ▸ hj))
  · rw [hq.checkpoints] at hne
    exact h.safe hne

/-- A command that begins writes neither file. -/
theorem quiet_command {now : TimePoint} {args : List Bytes} (hstep : s.command i now args = some s') :
    Quiet env s s' i ∧ (s.phase i).unmarked = false := by
  unfold State.command at hstep
  split at hstep
  case h_2 => cases hstep
  case h_1 hidle _ _ =>
    cases hstep
    exact ⟨.of_setPhase rfl rfl (.refl ..) rfl, by rw [hidle]; rfl⟩

/-- A `SAVE` that takes the barrier writes neither file. -/
theorem quiet_save (hstep : s.save i = some s') : Quiet env s s' i ∧ (s.phase i).unmarked = false := by
  unfold State.save at hstep
  split at hstep
  case h_2 => cases hstep
  case h_1 hidle _ =>
    cases hstep
    exact ⟨.of_setPhase rfl rfl (.refl ..) rfl, by rw [hidle]; rfl⟩

/-- A rewrite that takes the barrier writes neither file. -/
theorem quiet_rewrite (hstep : s.rewrite env i = some s') :
    Quiet env s s' i ∧ (s.phase i).unmarked = false := by
  unfold State.rewrite at hstep
  split at hstep
  case h_2 => cases hstep
  case h_1 hidle _ =>
    split_ifs at hstep
    cases hstep
    exact ⟨.of_setPhase rfl rfl (.refl ..) rfl, by rw [hidle]; rfl⟩

/-- Appending a record writes neither file. -/
theorem quiet_persist {request : Request} {completion : Completion} (h : Inv env e₀ s)
    (hen : env.config.persistence.aofEnabled = true)
    (hphase : s.phase i = .mutating request completion.changed (.done completion.result completion.record))
    (hstep : s.persist env i completion = some s') : Quiet env s s' i := by
  have hshared : (s.phase i).mode = .shared := by rw [hphase]; rfl
  have hatt := h.attached_of_not_exclusive (h.tracks.not_exclusive hshared)
  unfold State.persist at hstep
  split at hstep
  · cases hstep
    exact .of_setPhase rfl rfl (.refl ..) rfl
  · next record _ =>
    split at hstep
    · cases hstep
    · next status aof fs hrun =>
      obtain ⟨plan, hkeeps, -⟩ := (Aof.spec_append hatt hen record).of_calmly hrun
      have hfiles : SameFiles env s.fs fs := .of_keeps hkeeps (by simp)
      split_ifs at hstep
      · cases hstep
        exact .of_setPhase rfl rfl hfiles rfl
      · cases hstep
        exact .of_setPhase rfl rfl hfiles rfl

/-- Copying the keyspace writes neither file. -/
theorem quiet_materialise {order : IterationOrder} {now : TimePoint}
    (hstep : s.materialise env i order now = some s') : Quiet env s s' i := by
  unfold State.materialise at hstep
  split at hstep
  · cases hstep
  · next status aof storage fs hrun =>
    obtain ⟨plan, hkeeps, -⟩ := (Aof.spec_materialise order now s.aof s.storage).of_calmly hrun
    have hfiles : SameFiles env s.fs fs := .of_keeps hkeeps (by simp)
    split_ifs at hstep
    · cases hstep
      exact .of_setPhase rfl rfl hfiles rfl
    · cases hstep
      exact .of_setPhase rfl rfl hfiles rfl

/-- Renaming the new log writes neither file. -/
theorem quiet_swap {cp : Checkpoint} (h : Inv env e₀ s) (hphase : s.phase i = .materialised cp)
    (hstep : s.swap i cp = some s') : Quiet env s s' i := by
  have hself := h.phases i
  rw [hphase] at hself
  unfold State.swap at hstep
  split at hstep
  · cases hstep
  · next status aof fs hrun =>
    obtain ⟨plan, -, hout⟩ :=
      (Aof.spec_swap s.aof (Keeps.refl [.aofTmp] s.fs) hself.2.file).of_calmly hrun
    have hfiles : SameFiles env s.fs fs := by
      rcases hout with ⟨-, -, hkeeps, -⟩ | ⟨-, hkeeps⟩
      · exact .of_keeps hkeeps (by simp)
      · exact .of_keeps hkeeps (by simp)
    split_ifs at hstep
    · cases hstep
      exact .of_setPhase rfl rfl hfiles rfl
    · cases hstep
      exact .of_setPhase rfl rfl hfiles rfl

/-- Opening the new log writes neither file. -/
theorem quiet_resume (h : Inv env e₀ s) (hstep : s.resume env i = some s') : Quiet env s s' i := by
  unfold State.resume at hstep
  split at hstep
  · cases hstep
  · next status aof fs hrun =>
    cases hstep
    obtain ⟨plan, hkeeps, -⟩ := (Aof.spec_resume _ s.aof h.contents).of_calmly hrun
    exact .of_setPhase rfl rfl (.of_keeps hkeeps (by simp)) rfl

/-! ## The steps that do not -/

/-- While a command holds the barrier exclusively, no other is between the renames of a `SAVE`. -/
theorem Inv.not_snapshotSaved {t : State ι} {p : Phase} (h : Inv env e₀ s)
    (hexclusive : (s.phase i).mode = .exclusive) (ht : t.phase = s.phase) (hp : p.unmarked = false)
    (j : ι) (cp : Checkpoint) : (t.setPhase i p).phase j ≠ .snapshotSaved cp := by
  intro hj
  by_cases hji : j = i
  · rw [hji, State.phase_setPhase_self] at hj
    rw [hj] at hp
    cases hp
  · rw [State.phase_setPhase_of_ne _ _ hji, ht] at hj
    have hfree := h.tracks.alone hexclusive hji
    rw [hj] at hfree
    cases hfree

namespace Filed

/-- The new snapshot is in place. -/
theorem saveSnapshot {offset : ℕ} {order : IterationOrder} {now : TimePoint} (h : Filed env fs₀ s)
    (hinv : Inv env e₀ s) (hphase : s.phase i = .saving offset)
    (hstep : s.saveSnapshot env i offset order now = some s') : Filed env fs₀ s' := by
  have hexclusive : (s.phase i).mode = .exclusive := by rw [hphase]; rfl
  unfold State.saveSnapshot at hstep
  split at hstep
  · cases hstep
  · next status storage fs hrun =>
    obtain ⟨plan, hcalm, hout⟩ := (SnapshotStore.spec_syncAndSave order now s.storage s.aof).of_calmly hrun
    rcases hout with ⟨hok, -, -, -, hread⟩ | ⟨hfail, -⟩
    · rw [if_pos hok] at hstep
      cases hstep
      have hwindow : ∀ {t : State ι} {cp : Checkpoint},
          ¬ ∀ j, ((t.setPhase i (.snapshotSaved cp)).phase j).unmarked = false := fun hall => by
        have hi := hall i
        rw [State.phase_setPhase_self] at hi
        cases hi
      refine ⟨fun hall => absurd hall hwindow, fun hall => absurd hall hwindow, fun j cp hj => ?_, h.safe⟩
      by_cases hji : j = i
      · subst hji
        rw [State.phase_setPhase_self] at hj
        cases hj
        simp only [State.setPhase, hread, Option.getD_some]
      · rw [State.phase_setPhase_of_ne _ _ hji] at hj
        have hfree := hinv.tracks.alone hexclusive hji
        rw [show s.phase j = _ from hj] at hfree
        cases hfree
    · simp only at hfail
      rw [hfail] at hstep
      cases hstep
      -- all calls succeed, so the path was not safe
      have hpath : pathIsSafe (SnapshotStore.ofConfig env.config).path = false := by
        by_contra hsafe
        have hyes := (hcalm rfl).2 (by simpa using hsafe)
        rw [show status.isOk = true from hyes] at hfail
        cases hfail
      obtain ⟨-, rfl⟩ := Inv.storage_of_unsafe hpath hrun
      exact h.of_quiet (by rw [hphase]; rfl) (.of_setPhase rfl rfl (.refl ..) rfl)

/-- Without a safe path no manifest is written. -/
theorem safe_of_writeManifest {store : SnapshotStore} {m : Manifest} {fs fs' : FileSystem FileName}
    {status : Status} (hrun : calmly (store.writeManifest env m) fs = some (status, fs'))
    (hok : status.isOk = true) : pathIsSafe store.manifestPath = true := by
  by_contra hsafe
  rw [Bool.not_eq_true] at hsafe
  have hwrite : store.writeManifest env m ⟨fs, []⟩
      = .ok (.invalidArgument (ascii "invalid snapshot manifest path")) ⟨fs, []⟩ := by
    simp only [SnapshotStore.writeManifest, hsafe, Bool.not_false, if_true]
    rfl
  rw [calmly, hwrite] at hrun
  cases hrun
  cases hok

/-- The new manifest is in place, next to its snapshot. -/
theorem saveManifest {cp : Checkpoint} {now : TimePoint} (h : Filed env fs₀ s) (hinv : Inv env e₀ s)
    (hphase : s.phase i = .snapshotSaved cp) (hstep : s.saveManifest env i cp now = some s') :
    Filed env fs₀ s' := by
  have hexclusive : (s.phase i).mode = .exclusive := by rw [hphase]; rfl
  have hsaved := h.snapshot i cp hphase
  have hsep := SnapshotStore.separate_ofConfig env.config
  have htmp := hsep.tmp_ne
  have hne := hsep.ne
  simp only [List.mem_cons, not_or] at htmp hne
  unfold State.saveManifest at hstep
  dsimp only at hstep
  split at hstep
  · cases hstep
  · next status fs hrun =>
    obtain ⟨plan, hcalm, hout⟩ := (SnapshotStore.spec_writeManifest _).of_calmly hrun
    rcases hout with ⟨hok, hkeeps, hread⟩ | ⟨hfail, -⟩
    · rw [if_pos hok] at hstep
      cases hstep
      have hsnapshot : fs.read .snapshot = some cp.text := by
        rw [hkeeps.read (by simp [Ne.symm htmp.2.2.2.1, Ne.symm hne.2.2.2.1]), hsaved]
      refine ⟨fun _ cp' hcp' => ?_, fun _ hnil => absurd hnil (List.cons_ne_nil _ _),
        fun j cp' hj => absurd hj (hinv.not_snapshotSaved hexclusive rfl rfl j cp'),
        fun _ => safe_of_writeManifest hrun hok⟩
      obtain rfl := Option.some.inj hcp'
      exact ⟨hsnapshot, _, hread⟩
    · rw [hfail] at hstep
      cases hstep
      have hnotsafe : pathIsSafe (SnapshotStore.ofConfig env.config).manifestPath = false := by
        by_contra hsafe
        have hyes := (hcalm rfl).2 (by simpa using hsafe)
        rw [show status.isOk = true from hyes] at hfail
        cases hfail
      have hnil : s.checkpoints = [] := by
        by_contra hcps
        rw [h.safe hcps] at hnotsafe
        cases hnotsafe
      refine ⟨fun _ cp' hcp' => ?_, fun _ _ m hm => ?_,
        fun j cp' hj => absurd hj (hinv.not_snapshotSaved hexclusive rfl rfl j cp'),
        fun hcps => absurd hnil hcps⟩
      · have hhead : s.checkpoints.head? = some cp' := hcp'
        rw [hnil] at hhead
        cases hhead
      · have hsafe := SnapshotStore.safe_of_readManifest hm.read
        rw [hnotsafe] at hsafe
        cases hsafe

/-- The manifest is removed, unless it is at another path. -/
theorem removeManifest (h : Filed env fs₀ s) (hinv : Inv env e₀ s) (hphase : s.phase i = .renamed)
    (hstep : s.removeManifest env i = some s') : Filed env fs₀ s' := by
  have hexclusive : (s.phase i).mode = .exclusive := by rw [hphase]; rfl
  have hmarked : (s.phase i).unmarked = false := by rw [hphase]; rfl
  have hne := (SnapshotStore.separate_ofConfig env.config).ne
  simp only [List.mem_cons, not_or] at hne
  unfold State.removeManifest at hstep
  split at hstep
  · cases hstep
  · next fs hrun =>
    cases hstep
    obtain ⟨plan, hstage, -⟩ :=
      (Aof.spec_removeManifest _ (Keeps.refl [.aof, .aofTmp] s.fs) hinv.contents).of_calmly hrun
    cases hhas : fs.has (SnapshotStore.ofConfig env.config).manifestFile with
    | true =>
      have hfiles : SameFiles env s.fs fs := by
        cases hstage with
        | before hkeeps => exact .of_keeps hkeeps (by simp)
        | swapped hkeeps => exact .of_keeps hkeeps (by simp)
        | cleaned hkeeps _ hnone =>
          refine ⟨hkeeps.read (by decide), hkeeps.read ?_⟩
          have hother : (SnapshotStore.ofConfig env.config).manifestFile ≠ .manifest := by
            intro hfile
            rw [hfile, FileSystem.has, hnone] at hhas
            cases hhas
          simp [hne, hother]
      exact h.of_quiet hmarked (.of_setPhase rfl (by simp) hfiles rfl)
    | false =>
      have hgone : ∀ m, ¬ Names env fs m := fun m hm => by
        have hread := hm.read
        rw [FileSystem.has, Option.isSome_eq_false_iff, Option.isNone_iff_eq_none] at hhas
        rw [hhas] at hread
        simp [SnapshotStore.readManifest] at hread
      refine ⟨fun _ cp hcp => ?_, fun _ _ m hm => absurd hm (hgone m),
        fun j cp hj => absurd hj (hinv.not_snapshotSaved hexclusive rfl rfl j cp), fun hcps => ?_⟩
      · simp [State.setPhase] at hcp
      · simp [State.setPhase] at hcps

/-- It stays true at every step of a connection. -/
theorem proceed {order : IterationOrder} {now : TimePoint} (h : Filed env fs₀ s) (hinv : Inv env e₀ s)
    (hen : env.config.persistence.aofEnabled = true)
    (hstep : s.proceed env i order now = some s') : Filed env fs₀ s' := by
  unfold State.proceed at hstep
  split at hstep
  case h_1 | h_2 | h_3 => cases hstep
  case h_4 hphase =>
    cases hstep
    exact h.of_quiet (by rw [hphase]; rfl) (.of_setPhase rfl rfl (.refl ..) rfl)
  case h_5 hphase => exact h.of_quiet (by rw [hphase]; rfl) (quiet_persist hinv hen hphase hstep)
  case h_6 hphase =>
    cases hstep
    exact h.of_quiet (by rw [hphase]; rfl) (.of_setPhase rfl rfl (.refl ..) rfl)
  case h_7 hphase => exact h.saveSnapshot hinv hphase hstep
  case h_8 hphase => exact h.saveManifest hinv hphase hstep
  case h_9 hphase => exact h.of_quiet (by rw [hphase]; rfl) (quiet_materialise hstep)
  case h_10 hphase => exact h.of_quiet (by rw [hphase]; rfl) (quiet_swap hinv hphase hstep)
  case h_11 hphase => exact h.removeManifest hinv hphase hstep
  case h_12 hphase => exact h.of_quiet (by rw [hphase]; rfl) (quiet_resume hinv hstep)
  case h_13 hphase =>
    cases hstep
    exact h.of_quiet (by rw [hphase]; rfl) (.of_setPhase rfl rfl (.refl ..) rfl)

/-- **Every step keeps the files in step with the history.** -/
theorem next {a : Action ι} (h : Filed env fs₀ s) (hinv : Inv env e₀ s)
    (hen : env.config.persistence.aofEnabled = true) : Filed env fs₀ (s.next env a) := by
  unfold State.next
  cases hstep : s.step env a with
  | none => exact h
  | some s' =>
    rw [Option.getD_some]
    cases a with
    | command i now args =>
      obtain ⟨hq, hi⟩ : Quiet env s s' i ∧ _ := quiet_command hstep
      exact h.of_quiet hi hq
    | save i =>
      obtain ⟨hq, hi⟩ : Quiet env s s' i ∧ _ := quiet_save hstep
      exact h.of_quiet hi hq
    | rewrite i =>
      obtain ⟨hq, hi⟩ := quiet_rewrite hstep
      exact h.of_quiet hi hq
    | proceed i order now => exact h.proceed hinv hen hstep
    | read now r =>
      cases hstep
      exact ⟨h.latest, h.start, h.snapshot, h.safe⟩

omit [DecidableEq ι] in
/-- It holds of a server that has just started. -/
theorem of_started (h : s.Started env) : Filed env s.fs s := by
  refine ⟨fun _ cp hcp => ?_, fun _ _ m hm => ⟨hm, rfl⟩, fun i cp hi => ?_, fun hcps => ?_⟩
  · rw [h.checkpoints] at hcp
    cases hcp
  · rw [h.idle] at hi
    cases hi
  · exact absurd h.checkpoints hcps

end Filed

end Steps

/-! ## Runs -/

/-- The checkpoint cuts the history, and every write command that has finished and changed something
is on one side of it. -/
structure CountedBy (e₀ : StorageEngine) (s : State ι) (cp : Checkpoint) : Prop where
  cuts : Cuts e₀ s cp
  once : ∀ i c, s.phase i = .finished c → c.changed = true →
    Xor (InSnapshot s cp i) (InLog s cp i c.record)

/-- The checkpoint that is in force counts what was performed before it. -/
theorem Inv.countedBy {env : Env} {e₀ : StorageEngine} {s : State ι} (h : Inv env e₀ s)
    {cp : Checkpoint} (hcp : s.Counts env cp) : CountedBy e₀ s cp := by
  refine ⟨h.cuts cp hcp, fun i c hphase hchanged => ?_⟩
  have hok := h.phases i
  have hplaced := h.placed cp hcp i
  rw [hphase] at hok hplaced
  obtain ⟨hrecord, htouched⟩ := hok hchanged
  obtain ⟨record, hrecord⟩ := Option.isSome_iff_exists.mp hrecord
  rw [← List.take_append_drop cp.performed s.trace, untouched_append] at htouched
  rcases hplaced with ⟨hafter, hnone⟩ | ⟨hbefore, hone⟩
  · refine .inl ⟨⟨fun hbefore => htouched ⟨hbefore, hafter⟩, hafter, hnone⟩, ?_⟩
    rintro ⟨-, r, -, hr⟩
    rw [hnone] at hr
    cases hr
  · refine .inr ⟨⟨hbefore, record, hrecord, by rw [hone, hrecord]; rfl⟩, ?_⟩
    rintro ⟨hnot, -⟩
    exact hnot hbefore

/-- **Every command is counted once.** In every state of a run, of any number of commands in any
interleaving, provided that no command is refused a call after it has changed something:

* a log that was rewritten begins with the entries of the rewrite, and a write command that has
  finished and changed something is in these entries or in a record behind them, and not in both;
* the same goes for every `SAVE` since the manifest was last removed, with its snapshot and the
  records behind its offset, if a manifest path is configured and not within the window of a rewrite;
* the snapshot and the manifest on disk, with its offset, are those of the last of these, and if
  there is none, those of the start, but within the window of a `SAVE`. -/
theorem counted_once {env : Env} {s₀ : State ι} (h₀ : s₀.Started env) {actions : List (Action ι)}
    (hall : Machine.AllSteps (State.next env) (fun s a => granted s a = true) s₀ actions) :
    let s := Machine.run (State.next env) s₀ actions
    s.storage = Access.applyAll s₀.storage s.trace ∧ s.fs.read .aof = some s.contents ∧
      (∀ cp, s.rewritten = some cp → s.base = cp.text ∧ cp.logged = 0 ∧ CountedBy s₀.storage s cp) ∧
      (env.config.persistence.manifestPath ≠ [] → (∀ i, (s.phase i).stale = false) →
        ∀ cp ∈ s.checkpoints, CountedBy s₀.storage s cp) ∧
      ((∀ i, (s.phase i).unmarked = false) →
        (∀ cp ∈ s.checkpoints.head?, OnDisk env s.fs cp) ∧
        (s.checkpoints = [] → ∀ m, Names env s.fs m →
          Names env s₀.fs m ∧ s.fs.read .snapshot = s₀.fs.read .snapshot)) := by
  intro s
  obtain ⟨h, hfiled⟩ : Inv env s₀.storage s ∧ Filed env s₀.fs s :=
    Machine.run_invariant (I := fun s => Inv env s₀.storage s ∧ Filed env s₀.fs s)
      (fun _ _ hs hg => ⟨hs.1.next h₀.enabled hg, hs.2.next hs.1 h₀.enabled⟩)
      ⟨.of_started h₀, .of_started h₀⟩ hall
  refine ⟨h.storage, h.contents, fun cp hcp => ?_, fun hpath hstale cp hcp => ?_,
    fun hmarked => ⟨hfiled.latest hmarked, hfiled.start hmarked⟩⟩
  · exact ⟨(h.rewritten cp hcp).1, (h.rewritten cp hcp).2, h.countedBy (.inl hcp)⟩
  · have hsafe := hfiled.safe (List.ne_nil_of_mem hcp)
    rw [(SnapshotStore.ofConfig_manifest hpath).2] at hsafe
    exact h.countedBy (.inr ⟨hcp, hsafe, hstale⟩)

/-- Whether a command that has finished has changed something, and its record. -/
def Phase.outcome : Phase → Option (Bool × Option (List Bytes))
  | .finished c => some (c.changed, c.record)
  | _ => none

/-- A command has an outcome when it has ended. -/
theorem Phase.finished_of_outcome {p : Phase} {changed : Bool} {record : Option (List Bytes)}
    (h : p.outcome = some (changed, record)) :
    ∃ c, p = .finished c ∧ c.changed = changed ∧ c.record = record := by
  cases p <;> cases h
  exact ⟨_, rfl, rfl, rfl⟩

/-- A write before a `SAVE` and one after it. -/
def savedBetween : List (Action (Bool × Bool)) :=
  .command (false, false) 0 (["SET", "a", "1"].map ascii) :: steps (false, false) 3 ++
  .save (false, true) :: steps (false, true) 3 ++
  .command (true, false) 0 (["SET", "b", "2"].map ascii) :: steps (true, false) 3

/-- A write before a `SAVE` and a rewrite, and one after them. -/
def rewrittenBetween : List (Action (Bool × Bool)) :=
  .command (false, false) 0 (["SET", "a", "1"].map ascii) :: steps (false, false) 3 ++
  .save (false, true) :: steps (false, true) 3 ++
  .rewrite (true, true) :: steps (true, true) 5 ++
  .command (true, false) 0 (["SET", "b", "2"].map ascii) :: steps (true, false) 3

set_option maxRecDepth 100000 in
/-- After the `SAVE` the manifest and the snapshot are there, and after the rewrite no manifest is. -/
theorem counted_once_saved :
    (let s := Machine.run (State.next plainEnv) (opened plainEnv) savedBetween
      ∃ cp ∈ s.checkpoints, OnDisk plainEnv s.fs cp ∧ ∃ before after,
        s.phase (false, false) = .finished before ∧ s.phase (true, false) = .finished after ∧
        Xor (InSnapshot s cp (false, false)) (InLog s cp (false, false) before.record) ∧
        Xor (InSnapshot s cp (true, false)) (InLog s cp (true, false) after.record)) ∧
    (let s := Machine.run (State.next plainEnv) (opened plainEnv) rewrittenBetween
      ∃ cp, s.rewritten = some cp ∧ s.base = cp.text ∧ (∀ m, ¬ Names plainEnv s.fs m) ∧
        ∃ before after,
        s.phase (false, false) = .finished before ∧ s.phase (true, false) = .finished after ∧
        Xor (InSnapshot s cp (false, false)) (InLog s cp (false, false) before.record) ∧
        Xor (InSnapshot s cp (true, false)) (InLog s cp (true, false) after.record)) := by
  constructor
  · intro s
    obtain ⟨hall, hcps, hquiet, hbefore, hafter⟩ :
        Machine.AllSteps (State.next plainEnv) (fun s a => granted s a = true) (opened plainEnv)
            savedBetween ∧
          s.checkpoints.length = 1 ∧
          (∀ a b, (s.phase (a, b)).stale = false ∧ (s.phase (a, b)).unmarked = false) ∧
          (s.phase (false, false)).outcome = some (true, some (["SET", "a", "1"].map ascii)) ∧
          (s.phase (true, false)).outcome = some (true, some (["SET", "b", "2"].map ascii)) := by
      decide +kernel
    obtain ⟨cp, hcp⟩ := List.length_eq_one_iff.mp hcps
    obtain ⟨before, hphase, hchanged, -⟩ := Phase.finished_of_outcome hbefore
    obtain ⟨after, hphase', hchanged', -⟩ := Phase.finished_of_outcome hafter
    obtain ⟨-, -, -, hsaved, hfiles⟩ := counted_once (started_opened rfl) hall
    have hmem : cp ∈ s.checkpoints := hcp ▸ List.mem_singleton_self cp
    have hcounted := hsaved (by decide) (fun i => (hquiet i.1 i.2).1) cp hmem
    have hdisk := (hfiles fun i => (hquiet i.1 i.2).2).1 cp (show s.checkpoints.head? = _ by rw [hcp]; rfl)
    exact ⟨cp, hmem, hdisk, before, after, hphase, hphase',
      hcounted.once _ before hphase hchanged, hcounted.once _ after hphase' hchanged'⟩
  · intro s
    obtain ⟨hall, hrewritten, hcps, hquiet, hbefore, hafter⟩ :
        Machine.AllSteps (State.next plainEnv) (fun s a => granted s a = true) (opened plainEnv)
            rewrittenBetween ∧
          s.rewritten.isSome = true ∧ s.checkpoints.length = 0 ∧
          (∀ a b, (s.phase (a, b)).unmarked = false) ∧
          (s.phase (false, false)).outcome = some (true, some (["SET", "a", "1"].map ascii)) ∧
          (s.phase (true, false)).outcome = some (true, some (["SET", "b", "2"].map ascii)) := by
      decide +kernel
    obtain ⟨cp, hcp⟩ := Option.isSome_iff_exists.mp hrewritten
    obtain ⟨before, hphase, hchanged, -⟩ := Phase.finished_of_outcome hbefore
    obtain ⟨after, hphase', hchanged', -⟩ := Phase.finished_of_outcome hafter
    obtain ⟨-, -, hlog, -, hfiles⟩ := counted_once (started_opened rfl) hall
    obtain ⟨hbase, -, hcounted⟩ := hlog cp hcp
    have hnone : ∀ m, ¬ Names plainEnv s.fs m := fun m hm => by
      have hstart := ((hfiles fun i => hquiet i.1 i.2).2 (List.length_eq_zero_iff.mp hcps) m hm).1.read
      exact nomatch hstart
    exact ⟨cp, hcp, hbase, hnone, before, after, hphase, hphase',
      hcounted.once _ before hphase hchanged, hcounted.once _ after hphase' hchanged'⟩

/-- A `SAVE`, and then an `MSET` whose second value is too long. -/
def savedThenMset : List (Action ℕ) :=
  .save 1 :: steps 1 3 ++ .command 0 0 (["MSET", "a", "1", "b", "22"].map ascii) :: steps 0 4

set_option maxRecDepth 100000 in
/-- The first pair is stored, and neither in the snapshot nor in the log. -/
theorem mset_not_counted :
    let s := Machine.run (State.next narrowEnv) (opened narrowEnv) savedThenMset
    (s.storage.keyspace (ascii "a")).map Item.value = some (ascii "1") ∧
      ∃ cp ∈ s.checkpoints, ∃ c, s.phase 0 = .finished c ∧ c.changed = true ∧
        ¬ InSnapshot s cp 0 ∧ ¬ InLog s cp 0 c.record := by
  intro s
  obtain ⟨hstored, hcps, hphase⟩ : (s.storage.keyspace (ascii "a")).map Item.value = some (ascii "1") ∧
      s.checkpoints.map Checkpoint.performed = [0] ∧ (s.phase 0).outcome = some (true, none) := by
    decide +kernel
  obtain ⟨cp, hcp, hzero⟩ := List.map_eq_singleton_iff.mp hcps
  obtain ⟨c, hphase, hchanged, hrecord⟩ := Phase.finished_of_outcome hphase
  refine ⟨hstored, cp, hcp ▸ List.mem_singleton_self cp, c, hphase, hchanged, ?_, ?_⟩
  · rintro ⟨htouched, -⟩
    rw [hzero, List.take_zero] at htouched
    exact htouched nofun
  · rintro ⟨-, r, hr, -⟩
    rw [hrecord] at hr
    cases hr

end VeloxDb.Concurrency
