import VeloxDb.Common.FileSystem

/-!
# Programs over a file system that may fail or crash

A program makes its system calls one after another. What the kernel answers is not up to the
program: the world carries a *plan*, one outcome for each call to come, and a call made after the
plan has run out succeeds. A property proved for every plan holds for every failure and every crash
point; on the empty plan all calls succeed.

`Spec p w Q C` says what `p`, started in `w`, can end in: `Q` where it returns, `C` where the
process dies on the way.
-/

/-- The answer to one call. `short` and `interrupted` concern writes; other calls take them as
success. -/
inductive CallOutcome
  | ok
  | short (n : ℕ)
  | interrupted
  | fail (reason : Bytes)
  | crash
deriving DecidableEq, Repr

/-- The files, and the answers to the calls to come. -/
structure World (ν : Type) where
  fs : FileSystem ν
  plan : List CallOutcome

/-- A program that returns an `α`, or dies and leaves the files as they are. -/
abbrev FileProgram (ν α : Type) := EStateM Unit (World ν) α

namespace World

/-- Every call to come succeeds. -/
def Calm {ν : Type} (w : World ν) : Prop := w.plan = []

end World

namespace FileProgram

variable {ν α β : Type}

/-- The next answer of the kernel, unless the process dies here. -/
def nextOutcome : FileProgram ν CallOutcome := fun w =>
  match w.plan with
  | [] => .ok .ok w
  | .crash :: plan => .error () { w with plan }
  | outcome :: plan => .ok outcome { w with plan }

/-- A call that does `f`, or fails and does nothing. -/
def call (f : FileSystem ν → FileSystem ν × α) : FileProgram ν (Except Bytes α) := do
  match ← nextOutcome with
  | .fail reason => return .error reason
  | _ => modifyGet fun w => (.ok (f w.fs).2, { w with fs := (f w.fs).1 })

/-- Look at the files without a call that could fail. -/
def files : FileProgram ν (FileSystem ν) := do
  return (← get).fs

/-- The loop of `writeAll`, on the answers still to come. -/
def writeLoop (fd : ℕ) : List CallOutcome → Bytes → FileSystem ν →
    EStateM.Result Unit (World ν) (Except Bytes Unit)
  | plan, [], fs => .ok (.ok ()) ⟨fs, plan⟩
  | [], bytes, fs => .ok (.ok ()) ⟨fs.append fd bytes, []⟩
  | .ok :: plan, bytes, fs => .ok (.ok ()) ⟨fs.append fd bytes, plan⟩
  | .short 0 :: plan, _, fs => .ok (.error (ascii "write returned zero bytes")) ⟨fs, plan⟩
  | .short (n + 1) :: plan, bytes, fs =>
    writeLoop fd plan (bytes.drop (n + 1)) (fs.append fd (bytes.take (n + 1)))
  | .interrupted :: plan, bytes, fs => writeLoop fd plan bytes fs
  | .fail reason :: plan, _, fs => .ok (.error reason) ⟨fs, plan⟩
  | .crash :: plan, _, fs => .error () ⟨fs, plan⟩

/-- Write until everything is written: short writes are continued, interrupted ones repeated. -/
def writeAll (fd : ℕ) (bytes : Bytes) : FileProgram ν (Except Bytes Unit) := fun w =>
  writeLoop fd w.plan bytes w.fs

/-- Output on a file stream; `false` when the stream has gone bad. -/
def streamWrite (fd : ℕ) (bytes : Bytes) : FileProgram ν Bool := do
  match ← nextOutcome with
  | .fail _ => return false
  | .short n => modifyGet fun w => (false, { w with fs := w.fs.append fd (bytes.take n) })
  | _ => modifyGet fun w => (true, { w with fs := w.fs.append fd bytes })

/-! ## Specifications -/

/-- What a run of `p` from `w` can end in. -/
def Spec (p : FileProgram ν α) (w : World ν) (Q : α → World ν → Prop) (C : World ν → Prop) : Prop :=
  match p w with
  | .ok a w' => Q a w'
  | .error _ w' => C w'

variable {p : FileProgram ν α} {w : World ν} {Q : α → World ν → Prop} {C : World ν → Prop}

/-- A program without a step. -/
theorem spec_pure {a : α} : Spec (pure a) w Q C ↔ Q a w := Iff.rfl

/-- Weaker conditions hold as well. -/
theorem Spec.mono {Q' : α → World ν → Prop} {C' : World ν → Prop} (h : Spec p w Q' C')
    (hQ : ∀ a w', Q' a w' → Q a w') (hC : ∀ w', C' w' → C w') : Spec p w Q C := by
  unfold Spec at h ⊢
  split
  · next hp => exact hQ _ _ (by simpa only [hp] using h)
  · next hp => exact hC _ (by simpa only [hp] using h)

/-- Every program meets the trivial conditions. -/
theorem spec_any (p : FileProgram ν α) (w : World ν) :
    Spec p w (fun _ _ => True) fun _ => True := by
  unfold Spec
  split <;> trivial

/-- Sequencing: the second part starts wherever the first can end. -/
theorem spec_bind {f : α → FileProgram ν β} {R : β → World ν → Prop} :
    Spec (p >>= f) w R C ↔ Spec p w (fun a w' => Spec (f a) w' R C) C := by
  simp only [Spec, bind, EStateM.bind]
  cases p w <;> rfl

/-- A sequence that returned, cut in two. -/
theorem bind_eq_ok {f : α → FileProgram ν β} {b : β} {w' : World ν} :
    (p >>= f) w = .ok b w' ↔ ∃ a w₁, p w = .ok a w₁ ∧ f a w₁ = .ok b w' := by
  simp only [bind, EStateM.bind]
  cases hp : p w with
  | ok a w₁ =>
    refine ⟨fun h => ⟨a, w₁, rfl, h⟩, ?_⟩
    rintro ⟨_, _, ⟨⟩, h⟩
    exact h
  | error e w₁ =>
    refine iff_of_false nofun ?_
    rintro ⟨_, _, ⟨⟩, _⟩

/-- A program whose first part has come to its end. -/
theorem bind_of_ok {f : α → FileProgram ν β} {a : α} {w₁ : World ν} (h : p w = .ok a w₁) :
    (p >>= f) w = f a w₁ := by
  simp only [bind, EStateM.bind, h]

/-- The result does not matter. -/
theorem spec_discard {R : Unit → World ν → Prop} :
    Spec (discard p) w R C ↔ Spec p w (fun _ w' => R () w') C := by
  simp only [Spec, discard, Functor.mapConst, Function.comp_apply, EStateM.map]
  cases p w <;> rfl

/-- A run that returned, read back from its specification. -/
theorem Spec.of_ok (h : Spec p w Q C) {a : α} {w' : World ν} (hp : p w = .ok a w') : Q a w' := by
  simpa only [Spec, hp] using h

/-- A program that stops leaves what its condition for a crash says. -/
theorem Spec.of_error (h : Spec p w Q C) {e : Unit} {w' : World ν} (hp : p w = .error e w') :
    C w' := by
  simpa only [Spec, hp] using h

/-- A run cannot die where dying is ruled out. -/
theorem Spec.exists_ok (h : Spec p w Q (fun _ => False)) : ∃ a w', p w = .ok a w' ∧ Q a w' := by
  cases hp : p w with
  | ok a w' => exact ⟨a, w', rfl, h.of_ok hp⟩
  | error e w' => exact (h.of_error hp).elim

/-- A run in which every call succeeds: what it returns, and the files it leaves. -/
def calmly (p : FileProgram ν α) (fs : FileSystem ν) : Option (α × FileSystem ν) :=
  match p ⟨fs, []⟩ with
  | .ok a w => some (a, w.fs)
  | .error _ _ => none

/-- What holds in every world holds in one without failures. -/
theorem Spec.of_calmly {fs fs' : FileSystem ν} (h : Spec p ⟨fs, []⟩ Q C) {a : α}
    (hp : calmly p fs = some (a, fs')) : ∃ plan, Q a ⟨fs', plan⟩ := by
  unfold calmly at hp
  split at hp
  · next w hrun =>
    cases hp
    exact ⟨w.plan, h.of_ok hrun⟩
  · cases hp

/-! ### The calls

Each rule has a premise for the call that succeeds, one for the call that fails and one for the
process that dies in its place; the last two only occur when the world is not calm. -/

/-- Reading the files changes nothing. -/
theorem spec_files {Q : FileSystem ν → World ν → Prop} : Spec files w Q C ↔ Q w.fs w := Iff.rfl

/-- A call does its work, fails and does nothing, or stops before or behind it. -/
theorem spec_call {f : FileSystem ν → FileSystem ν × α} {Q : Except Bytes α → World ν → Prop}
    (hok : ∀ w', w'.fs = (f w.fs).1 → (w.Calm → w'.Calm) → Q (.ok (f w.fs).2) w')
    (hfail : ∀ reason w', w'.fs = w.fs → ¬ w.Calm → Q (.error reason) w')
    (hcrash : ∀ w', w'.fs = w.fs → ¬ w.Calm → C w') : Spec (call f) w Q C := by
  obtain ⟨fs, plan⟩ := w
  cases plan with
  | nil => exact hok ⟨(f fs).1, []⟩ rfl (fun _ => rfl)
  | cons outcome plan =>
    have hcalm : ¬ (World.mk fs (outcome :: plan)).Calm := by simp [World.Calm]
    cases outcome with
    | crash => exact hcrash ⟨fs, plan⟩ rfl hcalm
    | fail reason => exact hfail reason ⟨fs, plan⟩ rfl hcalm
    | ok | short _ | interrupted =>
      exact hok ⟨(f fs).1, plan⟩ rfl (fun h => absurd h hcalm)

/-- A call that succeeds has done its work. -/
theorem call_eq_ok {f : FileSystem ν → FileSystem ν × α} {a : α} {w' : World ν}
    (h : call f w = .ok (.ok a) w') : w'.fs = (f w.fs).1 ∧ a = (f w.fs).2 := by
  obtain ⟨fs, plan⟩ := w
  cases plan with
  | nil => cases h; exact ⟨rfl, rfl⟩
  | cons outcome plan => cases outcome <;> cases h <;> exact ⟨rfl, rfl⟩

/-- A call fails where the kernel says so. -/
theorem call_eq_error {f : FileSystem ν → FileSystem ν × α} {reason : Bytes} {w' : World ν}
    (h : call f w = .ok (.error reason) w') : w = ⟨w'.fs, .fail reason :: w'.plan⟩ := by
  obtain ⟨fs, plan⟩ := w
  cases plan with
  | nil => cases h
  | cons outcome plan => cases outcome <;> cases h; rfl

/-- A write to a stream that fails has written some of the bytes. -/
theorem spec_streamWrite {fd : ℕ} {bytes : Bytes} {Q : Bool → World ν → Prop}
    (hok : ∀ w', w'.fs = w.fs.append fd bytes → (w.Calm → w'.Calm) → Q true w')
    (hfail : ∀ written w', w'.fs = w.fs.append fd written → ¬ w.Calm → Q false w')
    (hcrash : ∀ w', w'.fs = w.fs → ¬ w.Calm → C w') : Spec (streamWrite fd bytes) w Q C := by
  obtain ⟨fs, plan⟩ := w
  cases plan with
  | nil => exact hok ⟨fs.append fd bytes, []⟩ rfl (fun _ => rfl)
  | cons outcome plan =>
    have hcalm : ¬ (World.mk fs (outcome :: plan)).Calm := by simp [World.Calm]
    cases outcome with
    | crash => exact hcrash ⟨fs, plan⟩ rfl hcalm
    | fail reason =>
      exact hfail [] ⟨fs, plan⟩ fs.append_nil.symm hcalm
    | short n => exact hfail (bytes.take n) ⟨fs.append fd (bytes.take n), plan⟩ rfl hcalm
    | ok | interrupted =>
      exact hok ⟨fs.append fd bytes, plan⟩ rfl (fun h => absurd h hcalm)

/-- How many of `n` bytes the kernel takes before the write loop ends. -/
def taken : List CallOutcome → ℕ → ℕ
  | _, 0 => 0
  | [], n => n
  | .ok :: _, n => n
  | .short 0 :: _, _ => 0
  | .short (k + 1) :: plan, n => min (k + 1) n + taken plan (n - (k + 1))
  | .interrupted :: plan, n => taken plan n
  | .fail _ :: _, _ => 0
  | .crash :: _, _ => 0

/-- An interrupted write is tried again. -/
theorem taken_interrupted (plan : List CallOutcome) (n : ℕ) :
    taken (.interrupted :: plan) n = taken plan n := by
  cases n <;> simp [taken]

/-- A short write goes on with the rest. -/
theorem taken_short (plan : List CallOutcome) (k n : ℕ) :
    taken (.short (k + 1) :: plan) n = min (k + 1) n + taken plan (n - (k + 1)) := by
  cases n <;> simp [taken]

/-- What the write loop can end in: everything is written, or what the kernel took of it. -/
theorem writeLoop_cases (fd : ℕ) (plan : List CallOutcome) (bytes : Bytes) (fs : FileSystem ν) :
    match writeLoop fd plan bytes fs with
    | .ok (.ok ()) w' => w'.fs = fs.append fd bytes ∧ taken plan bytes.length = bytes.length ∧
        (plan = [] → w'.plan = [])
    | .ok (.error _) w' | .error _ w' => plan ≠ [] ∧ taken plan bytes.length < bytes.length ∧
        w'.fs = fs.append fd (bytes.take (taken plan bytes.length)) := by
  induction plan generalizing bytes fs with
  | nil => cases bytes <;> simp [writeLoop, taken]
  | cons outcome plan ih =>
    cases bytes with
    | nil => simp [writeLoop, taken]
    | cons b bytes =>
      cases outcome with
      | ok => simp [writeLoop, taken]
      | fail reason => simp [writeLoop, taken]
      | crash => simp [writeLoop, taken]
      | interrupted =>
        have h := ih (b :: bytes) fs
        simp only [writeLoop, taken_interrupted]
        split <;> simp_all
      | short n =>
        cases n with
        | zero => simp [writeLoop, taken]
        | succ n =>
          -- the first `n + 1` bytes are in the file; the loop goes on with the others
          have h := ih ((b :: bytes).drop (n + 1)) (fs.append fd ((b :: bytes).take (n + 1)))
          rw [FileSystem.append_append, List.take_append_drop, FileSystem.append_append,
            ← List.take_add] at h
          simp only [writeLoop, taken_short]
          generalize b :: bytes = bytes at h ⊢
          rw [List.length_drop] at h
          split <;> rename_i hrun <;> rw [hrun] at h
          · exact ⟨h.1, by omega, by simp⟩
          · rw [min_eq_left (by omega)]
            exact ⟨by simp, by omega, h.2.2⟩
          · rw [min_eq_left (by omega)]
            exact ⟨by simp, by omega, h.2.2⟩

/-- `writeAll` writes everything, or stops with some first part written. -/
theorem spec_writeAll {fd : ℕ} {bytes : Bytes} {Q : Except Bytes Unit → World ν → Prop}
    (hok : ∀ w', w'.fs = w.fs.append fd bytes → (w.Calm → w'.Calm) → Q (.ok ()) w')
    (hfail : ∀ reason written w', w'.fs = w.fs.append fd written → written <+: bytes → ¬ w.Calm →
      Q (.error reason) w')
    (hcrash : ∀ written w', w'.fs = w.fs.append fd written → written <+: bytes → ¬ w.Calm → C w') :
    Spec (writeAll fd bytes) w Q C := by
  have h := writeLoop_cases fd w.plan bytes w.fs
  simp only [Spec, writeAll]
  split at h <;> rename_i hrun
  · rw [hrun]
    exact hok _ h.1 h.2.2
  · rw [hrun]
    exact hfail _ _ _ h.2.2 (List.take_prefix _ _) h.1
  · rw [hrun]
    exact hcrash _ _ h.2.2 (List.take_prefix _ _) h.1

/-! ### Programs that leave the files alone -/

/-- `p` does not change the files, and ends well in a calm world. -/
def Idle (good : α → Prop) (p : FileProgram ν α) : Prop :=
  ∀ w, Spec p w (fun a w' => w'.fs = w.fs ∧ (w.Calm → w'.Calm ∧ good a))
    (fun w' => w'.fs = w.fs ∧ ¬ w.Calm)

/-- A program without a step changes no file. -/
theorem idle_pure {good : α → Prop} {a : α} (h : good a) : Idle good (pure a : FileProgram ν α) :=
  fun _ => spec_pure.mpr ⟨rfl, fun hcalm => ⟨hcalm, h⟩⟩

/-- A call without an effect on the files. -/
theorem idle_call {a : α} : Idle (· = .ok a) (call fun fs : FileSystem ν => (fs, a)) := fun _ =>
  spec_call (fun _ hfs hcalm => ⟨hfs, fun hc => ⟨hcalm hc, rfl⟩⟩)
    (fun _ _ hfs hcalm => ⟨hfs, fun hc => absurd hc hcalm⟩) (fun _ hfs hcalm => ⟨hfs, hcalm⟩)

/-- Two programs that change no file change none together. -/
theorem Idle.bind {good : α → Prop} {good' : β → Prop} {f : α → FileProgram ν β} (hp : Idle good p)
    (hf : ∀ a, ∀ w, Spec (f a) w (fun b w' => w'.fs = w.fs ∧ (w.Calm → w'.Calm ∧ (good a → good' b)))
      (fun w' => w'.fs = w.fs ∧ ¬ w.Calm)) : Idle good' (p >>= f) := fun w => by
  rw [spec_bind]
  refine (hp w).mono (fun a w₁ ha => ?_) fun w₁ ha => ha
  obtain ⟨hfs, hcalm⟩ := ha
  refine (hf a w₁).mono (fun b w₂ hb => ⟨hb.1.trans hfs, fun hc => ?_⟩) fun w₂ hb =>
    ⟨hb.1.trans hfs, fun hc => hb.2 (hcalm hc).1⟩
  obtain ⟨hc₁, hgood⟩ := hcalm hc
  exact ⟨(hb.2 hc₁).1, (hb.2 hc₁).2 hgood⟩

/-- Continue behind an idle program. -/
theorem Idle.spec_bind {good : α → Prop} {f : α → FileProgram ν β} {R : β → World ν → Prop}
    (hp : Idle good p)
    (hok : ∀ a w', w'.fs = w.fs → (w.Calm → w'.Calm ∧ good a) → Spec (f a) w' R C)
    (hcrash : ∀ w', w'.fs = w.fs → ¬ w.Calm → C w') : Spec (p >>= f) w R C :=
  FileProgram.spec_bind.mpr
    ((hp w).mono (fun a w' h => hok a w' h.1 h.2) fun w' h => hcrash w' h.1 h.2)

/-! ### Programs in a calm world

Here a program can be followed without looking at the files: what a call hands back may depend on
them, what the program makes of it often does not. -/

/-- In a calm world `p` returns a `good` result, whatever the files are. -/
def Settles (good : α → Prop) (p : FileProgram ν α) : Prop :=
  ∀ w, w.Calm → Spec p w (fun a w' => w'.Calm ∧ good a) fun _ => False

section Settles

variable {good : α → Prop}

/-- A program without a step settles. -/
theorem settles_pure {a : α} (h : good a) : Settles good (pure a : FileProgram ν α) :=
  fun _ hw => spec_pure.mpr ⟨hw, h⟩

/-- Two programs settle together. -/
theorem Settles.bind {good' : β → Prop} {f : α → FileProgram ν β} (hp : Settles good p)
    (hf : ∀ a, good a → Settles good' (f a)) : Settles good' (p >>= f) := fun w hw =>
  spec_bind.mpr ((hp w hw).mono (fun a w' h => hf a h.2 w' h.1) fun _ h => h)

/-- The result does not matter. -/
theorem Settles.discard (hp : Settles good p) :
    Settles (fun _ => True) (Functor.discard p : FileProgram ν PUnit) := fun w hw =>
  spec_discard.mpr ((hp w hw).mono (fun _ _ h => ⟨h.1, trivial⟩) fun _ h => h)

/-- A calm call succeeds. -/
theorem settles_call {f : FileSystem ν → FileSystem ν × α} :
    Settles (fun r => ∃ a, r = .ok a) (call f) := fun _ hw =>
  spec_call (fun _ _ hcalm => ⟨hcalm hw, _, rfl⟩) (fun _ _ _ hcalm => absurd hw hcalm)
    fun _ _ hcalm => absurd hw hcalm

/-- A calm write to a stream succeeds. -/
theorem settles_streamWrite {fd : ℕ} {bytes : Bytes} :
    Settles (· = true) (streamWrite fd bytes : FileProgram ν Bool) := fun _ hw =>
  spec_streamWrite (fun _ _ hcalm => ⟨hcalm hw, rfl⟩) (fun _ _ _ hcalm => absurd hw hcalm)
    fun _ _ hcalm => absurd hw hcalm

/-- A program that changes no file settles. -/
theorem Idle.settles (hp : Idle good p) : Settles good p := fun w hw =>
  (hp w).mono (fun _ _ h => h.2 hw) fun _ h => h.2 hw

end Settles

/-! ### What programs report

A program that puts the kernel's reasons into words returns texts that are as good as the reasons.
-/

/-- Every reason for a failure that the kernel may still give satisfies `P`. -/
def Reasons (P : Bytes → Prop) (w : World ν) : Prop :=
  ∀ reason, CallOutcome.fail reason ∈ w.plan → P reason

/-- With such reasons, what `p` returns is `good`. -/
def Reports (P : Bytes → Prop) (good : α → Prop) (p : FileProgram ν α) : Prop :=
  ∀ w, Reasons P w → Spec p w (fun a w' => Reasons P w' ∧ good a) fun _ => True

variable {P : Bytes → Prop} {good : α → Prop}

/-- A program without a step reports nothing. -/
theorem reports_pure {a : α} (h : good a) : Reports P good (pure a : FileProgram ν α) :=
  fun _ hw => spec_pure.mpr ⟨hw, h⟩

/-- Two programs report what each of them does. -/
theorem Reports.bind {good' : β → Prop} {f : α → FileProgram ν β} (hp : Reports P good p)
    (hf : ∀ a, good a → Reports P good' (f a)) : Reports P good' (p >>= f) := fun w hw =>
  spec_bind.mpr ((hp w hw).mono (fun a w' h => hf a h.2 w' h.1) fun _ h => h)

/-- The result does not matter. -/
theorem Reports.discard (hp : Reports P good p) :
    Reports P (fun _ => True) (Functor.discard p : FileProgram ν PUnit) := fun w hw =>
  spec_discard.mpr ((hp w hw).mono (fun _ _ h => ⟨h.1, trivial⟩) fun _ h => h)

/-- The reasons that are still to come are some of those that were. -/
theorem reasons_tail {fs fs' : FileSystem ν} {outcome : CallOutcome} {plan : List CallOutcome}
    (h : Reasons P ⟨fs, outcome :: plan⟩) : Reasons P ⟨fs', plan⟩ :=
  fun reason hr => h reason (List.mem_cons_of_mem _ hr)

/-- A call that fails gives a reason of the kernel. -/
theorem reports_call {f : FileSystem ν → FileSystem ν × α} :
    Reports P (fun r => ∀ reason, r = .error reason → P reason) (call f) := by
  rintro ⟨fs, plan⟩ hw
  cases plan with
  | nil => exact ⟨fun _ hr => absurd hr List.not_mem_nil, fun _ hr => by cases hr⟩
  | cons outcome plan =>
    cases outcome with
    | crash => trivial
    | fail reason =>
      refine ⟨reasons_tail hw, fun reason' hr => ?_⟩
      cases hr
      exact hw reason (by simp)
    | ok | short _ | interrupted => exact ⟨reasons_tail hw, fun _ hr => by cases hr⟩

/-- A stream gives no reason. -/
theorem reports_streamWrite {fd : ℕ} {bytes : Bytes} :
    Reports P (fun _ => True) (streamWrite fd bytes : FileProgram ν Bool) := by
  rintro ⟨fs, plan⟩ hw
  cases plan with
  | nil => exact ⟨fun _ hr => absurd hr List.not_mem_nil, trivial⟩
  | cons outcome plan =>
    cases outcome with
    | crash => trivial
    | fail _ | ok | short _ | interrupted => exact ⟨reasons_tail hw, trivial⟩

/-- A write that fails gives a reason of the kernel, or that nothing was written. -/
theorem reports_writeAll {fd : ℕ} {bytes : Bytes} (hzero : P (ascii "write returned zero bytes")) :
    Reports P (fun r => ∀ reason, r = .error reason → P reason)
      (writeAll fd bytes : FileProgram ν (Except Bytes Unit)) := by
  rintro ⟨fs, plan⟩ hw
  -- by induction on the answers to come
  induction plan generalizing bytes fs with
  | nil => cases bytes <;> exact ⟨hw, fun _ hr => by cases hr⟩
  | cons outcome plan ih =>
    cases bytes with
    | nil => exact ⟨hw, fun _ hr => by cases hr⟩
    | cons b bytes =>
      cases outcome with
      | ok => exact ⟨reasons_tail hw, fun _ hr => by cases hr⟩
      | crash => trivial
      | interrupted => exact ih fs (reasons_tail hw)
      | fail reason =>
        refine ⟨reasons_tail hw, fun reason' hr => ?_⟩
        cases hr
        exact hw reason (by simp)
      | short n =>
        cases n with
        | zero =>
          refine ⟨reasons_tail hw, fun reason' hr => ?_⟩
          cases hr
          exact hzero
        | succ n => exact ih _ (reasons_tail hw)

end FileProgram
