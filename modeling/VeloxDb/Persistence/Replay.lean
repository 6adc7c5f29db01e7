import VeloxDb.Protocol.Framing

/-!
# `Aof::replay_file`: reading a log back

`replay_file` and `SnapshotStore::load` run the same loop: take the next command off the parser and
hand it to a callback, until the parser asks for more, reports an error, or the callback refuses a
command. The loop is `drain`; what its end means is up to the caller.

`drain_encode` reduces the loop on encoded commands to `feed`, which hands a list of commands to the
callback, and `replayFile_take` says what is replayed from a log that was cut at an arbitrary byte.
-/

namespace VeloxDb

open Resp

/-- `path_is_safe`: a path is not empty and has no byte 0. -/
def pathIsSafe (path : Bytes) : Bool := !path.isEmpty && !path.contains 0

/-- What a command does to the state of the caller, and whether the loop goes on. -/
abbrev ReplayCallback (σ : Type) := σ → List Bytes → Status × σ

/-- Why the loop stopped. -/
inductive DrainStop
  | needMore (buffered : ℕ)
  | error (message : Bytes)
  | refused (status : Status)
deriving DecidableEq, Repr

section Drain

variable {σ : Type} (callback : ReplayCallback σ)

/-- One round, on the parser, the caller's state and the number of commands accepted so far. -/
def drainRound : Parser × σ × ℕ → (Parser × σ × ℕ) ⊕ (DrainStop × σ × ℕ)
  | (parser, s, commands) =>
    match parser.nextCommand with
    | (.needMore, parser') => .inr (.needMore parser'.bufferedBytes, s, commands)
    | (.error message, _) => .inr (.error message, s, commands)
    | (.ok command, parser') =>
      let (status, s') := callback s command.args
      if status.isOk then .inl (parser', s', commands + 1)
      else .inr (.refused status, s', commands)

/-- A round takes bytes off the buffer. -/
theorem drainRound_lowers : Loop.Lowers (drainRound callback) fun t => t.1.buffer.length := by
  rintro ⟨parser, s, commands⟩ t h
  simp only [drainRound] at h
  split at h
  · cases h
  · cases h
  · next command parser' hnext =>
    split_ifs at h
    cases h
    exact length_buffer_lt_of_nextCommand hnext

/-- The loop over the requests in the buffer. -/
def drain (parser : Parser) (s : σ) (commands : ℕ) : DrainStop × σ × ℕ :=
  Loop.runUntil (drainRound callback) (fun t => t.1.buffer.length) (drainRound_lowers callback)
    (parser, s, commands)

/-- Hand commands to the callback, up to the first it refuses. -/
def feed : List (List Bytes) → σ → ℕ → (σ × ℕ) ⊕ (DrainStop × σ × ℕ)
  | [], s, commands => .inl (s, commands)
  | args :: rest, s, commands =>
    let (status, s') := callback s args
    if status.isOk then feed rest s' (commands + 1) else .inr (.refused status, s', commands)

variable {callback}

/-- One round of the loop. -/
theorem drain_eq (parser : Parser) (s : σ) (commands : ℕ) :
    drain callback parser s commands =
      match parser.nextCommand with
      | (.needMore, parser') => (.needMore parser'.bufferedBytes, s, commands)
      | (.error message, _) => (.error message, s, commands)
      | (.ok command, parser') =>
        let (status, s') := callback s command.args
        if status.isOk then drain callback parser' s' (commands + 1)
        else (.refused status, s', commands) := by
  rw [drain, Loop.runUntil_eq]
  simp only [drainRound]
  rcases parser.nextCommand with ⟨_ | _ | _, parser'⟩
  · dsimp only
    split_ifs <;> rfl
  · rfl
  · rfl

/-- Without a whole record the loop ends. -/
theorem drain_of_needMore {parser : Parser} (h : parser.nextCommand = (.needMore, parser)) (s : σ)
    (commands : ℕ) : drain callback parser s commands
      = (.needMore parser.bufferedBytes, s, commands) :=
  by rw [drain_eq, h]

/-- An empty buffer has no record. -/
theorem drain_nil (options : ParserOptions) (s : σ) (commands : ℕ) :
    drain callback ⟨options, []⟩ s commands = (.needMore 0, s, commands) :=
  drain_of_needMore rfl s commands

/-- Encoded commands at the front of the buffer are fed to the callback, one after another. -/
theorem drain_encode {parser : Parser} {rest : Bytes} (cmds : List (List Bytes))
    (hlim : ∀ args ∈ cmds, WithinLimits parser.options args)
    (hb : parser.buffer = cmds.flatMap encodeCommand ++ rest) (s : σ) (commands : ℕ) :
    drain callback parser s commands =
      match feed callback cmds s commands with
      | .inl (s', commands') => drain callback { parser with buffer := rest } s' commands'
      | .inr stop => stop := by
  induction cmds generalizing parser s commands with
  | nil =>
    obtain ⟨options, buffer⟩ := parser
    simp only [List.flatMap_nil, List.nil_append] at hb
    subst hb
    rfl
  | cons args cmds ih =>
    have hnext : parser.nextCommand = (.ok ⟨args, encodeCommand args⟩,
        { parser with buffer := cmds.flatMap encodeCommand ++ rest }) :=
      nextCommand_encode (hlim args (by simp)) (by rw [hb]; simp)
    rw [drain_eq]
    simp only [hnext, feed]
    split_ifs with hstatus
    · exact @ih { parser with buffer := cmds.flatMap encodeCommand ++ rest }
        (fun a ha => hlim a (by simp [ha])) rfl _ _
    · rfl

/-- Records and more records. -/
theorem feed_append (cmds more : List (List Bytes)) (s : σ) (commands : ℕ) :
    feed callback (cmds ++ more) s commands =
      match feed callback cmds s commands with
      | .inl (s', commands') => feed callback more s' commands'
      | .inr stop => .inr stop := by
  induction cmds generalizing s commands with
  | nil => rfl
  | cons args cmds ih =>
    simp only [List.cons_append, feed]
    split_ifs
    · exact ih _ _
    · rfl

/-- A callback that never refuses is called on every command. -/
theorem feed_of_isOk (hcb : ∀ s args, (callback s args).1.isOk = true) (cmds : List (List Bytes))
    (s : σ) (commands : ℕ) :
    feed callback cmds s commands
      = .inl (cmds.foldl (fun s args => (callback s args).2) s, commands + cmds.length) := by
  induction cmds generalizing s commands with
  | nil => rfl
  | cons args cmds ih =>
    simp only [feed, hcb, if_true, ih, List.foldl_cons, List.length_cons]
    congr 2
    omega

/-- Callbacks that give related states the same answer lead the loop to the same end. -/
theorem drain_related {τ : Type} {callback' : ReplayCallback τ} {R : σ → τ → Prop}
    (hcb : ∀ s t args, R s t → (callback s args).1 = (callback' t args).1 ∧
      R (callback s args).2 (callback' t args).2) (parser : Parser) {s : σ} {t : τ} (hst : R s t)
    (commands : ℕ) :
    ∃ stop s' t' commands', drain callback parser s commands = (stop, s', commands') ∧
      drain callback' parser t commands = (stop, t', commands') ∧ R s' t' := by
  have h := Loop.runUntil_related (drainRound_lowers callback) (drainRound_lowers callback')
    (R := fun a b => a.1 = b.1 ∧ R a.2.1 b.2.1 ∧ a.2.2 = b.2.2)
    (Q := fun a b => a.1 = b.1 ∧ R a.2.1 b.2.1 ∧ a.2.2 = b.2.2) ?_
    (s := (parser, s, commands)) (t := (parser, t, commands)) ⟨rfl, hst, rfl⟩
  · exact ⟨_, _, _, _, rfl, Prod.ext h.1.symm (Prod.ext rfl h.2.2.symm), h.2.1⟩
  · rintro ⟨parser, s, commands⟩ ⟨-, t, -⟩ ⟨rfl, hst, rfl⟩
    simp only [drainRound]
    split
    · exact .inr ⟨rfl, hst, rfl⟩
    · exact .inr ⟨rfl, hst, rfl⟩
    · next command parser' _ =>
      obtain ⟨hstatus, hst'⟩ := hcb s t command.args hst
      simp only [← hstatus]
      split_ifs
      · exact .inl ⟨rfl, hst', rfl⟩
      · exact .inr ⟨rfl, hst', rfl⟩

end Drain

/-! ## `replay_file` -/

/-- `Aof::ReplayStats`. -/
structure ReplayStats where
  commands : ℕ := 0
  ignoredPartialTail : Bool := false
  status : Status := .ok
deriving DecidableEq, Repr

/-- `file` is what the file system has at `path`: nothing, or the contents of the file. -/
def replayFile {σ : Type} (path : Bytes) (file : Option Bytes) (protocol : ProtocolConfig)
    (callback : ReplayCallback σ) (startOffset : ℕ) (s : σ) : ReplayStats × σ :=
  match file with
  | none => ({}, s)
  | some content =>
    if !pathIsSafe path then ({}, s)
    else if content = [] then ({}, s)
    else if startOffset > content.length then
      ({ status := .protocolError (ascii "AOF replay offset is beyond end of file") }, s)
    else if startOffset = content.length then ({}, s)
    else
      let parser : Parser := { options := parserOptionsFromConfig protocol }
      match parser.append (content.drop startOffset) with
      | (status, parser) =>
        if !status.isOk then ({ status }, s)
        else
          match drain callback parser s 0 with
          | (.needMore buffered, s', commands) =>
            ({ commands, ignoredPartialTail := buffered != 0 }, s')
          | (.error message, s', commands) =>
            ({ commands, status := .protocolError (ascii "AOF replay failed: " ++ message) }, s')
          | (.refused status, s', commands) => ({ commands, status }, s')

/-- Two callbacks that do related things end in related states. -/
theorem replayFile_related {σ τ : Type} {callback : ReplayCallback σ} {callback' : ReplayCallback τ}
    {R : σ → τ → Prop} (hcb : ∀ s t args, R s t → (callback s args).1 = (callback' t args).1 ∧
      R (callback s args).2 (callback' t args).2) (path : Bytes) (file : Option Bytes)
    (protocol : ProtocolConfig) (startOffset : ℕ) {s : σ} {t : τ} (hst : R s t) :
    (replayFile path file protocol callback startOffset s).1
        = (replayFile path file protocol callback' startOffset t).1 ∧
      R (replayFile path file protocol callback startOffset s).2
        (replayFile path file protocol callback' startOffset t).2 := by
  cases file with
  | none => exact ⟨rfl, hst⟩
  | some content =>
    simp only [replayFile]
    split_ifs
    · exact ⟨rfl, hst⟩
    · exact ⟨rfl, hst⟩
    · exact ⟨rfl, hst⟩
    · exact ⟨rfl, hst⟩
    · exact ⟨rfl, hst⟩
    · obtain ⟨stop, s', t', commands, hs, ht, hst'⟩ := drain_related hcb
        (Parser.append ⟨parserOptionsFromConfig protocol, []⟩ (content.drop startOffset)).2 hst 0
      simp only [hs, ht]
      cases stop <;> exact ⟨rfl, hst'⟩

/-- The callback runs over the part of the file from `startOffset`, when that part is within the
request limit. -/
theorem replayFile_eq {σ : Type} {path : Bytes} (hpath : pathIsSafe path = true) {content : Bytes}
    {protocol : ProtocolConfig} {callback : ReplayCallback σ} {startOffset : ℕ}
    (hoff : startOffset ≤ content.length)
    (hlen : content.length - startOffset ≤ protocol.maxRequestBytes) (s : σ) :
    replayFile path (some content) protocol callback startOffset s =
      match drain callback ⟨parserOptionsFromConfig protocol, content.drop startOffset⟩ s 0 with
      | (.needMore buffered, s', commands) =>
        ({ commands, ignoredPartialTail := buffered != 0 }, s')
      | (.error message, s', commands) =>
        ({ commands, status := .protocolError (ascii "AOF replay failed: " ++ message) }, s')
      | (.refused status, s', commands) => ({ commands, status }, s') := by
  simp only [replayFile, hpath, Bool.not_true, Bool.false_eq_true, if_false]
  by_cases hc : content = []
  · subst hc
    simp [drain_nil]
  rw [if_neg hc, if_neg (by omega)]
  by_cases hend : startOffset = content.length
  · rw [if_pos hend, hend, List.drop_length]
    simp [drain_nil]
  · rw [if_neg hend, append_fresh (by rw [List.length_drop]; exact hlen)]
    simp only [Status.isOk_ok, Bool.not_true, Bool.false_eq_true, if_false]

/-- A part of the file that holds encoded commands, all of which the callback accepts. -/
theorem replayFile_of_feed {σ : Type} {path : Bytes} (hpath : pathIsSafe path = true) {content : Bytes}
    {protocol : ProtocolConfig} {callback : ReplayCallback σ} {startOffset : ℕ}
    (hoff : startOffset ≤ content.length) {cmds : List (List Bytes)}
    (hdrop : content.drop startOffset = cmds.flatMap encodeCommand)
    (hlim : ∀ args ∈ cmds, WithinLimits (parserOptionsFromConfig protocol) args)
    (hlen : (cmds.flatMap encodeCommand).length ≤ protocol.maxRequestBytes) {s s' : σ} {commands : ℕ}
    (hfeed : feed callback cmds s 0 = .inl (s', commands)) :
    replayFile path (some content) protocol callback startOffset s = ({ commands }, s') := by
  rw [replayFile_eq hpath hoff (by rw [← List.length_drop, hdrop]; exact hlen),
    drain_encode cmds hlim (hdrop.trans (List.append_nil _).symm), hfeed]
  simp only [drain_nil, bne_self_eq_false]

/-! ## Cut logs -/

/-- Where the first `i` records of a log end. -/
def recordEnd (cmds : List (List Bytes)) (i : ℕ) : ℕ :=
  ((cmds.take i).flatMap encodeCommand).length

/-- A record further on ends behind the first one. -/
theorem recordEnd_cons_succ (args : List Bytes) (cmds : List (List Bytes)) (i : ℕ) :
    recordEnd (args :: cmds) (i + 1) = (encodeCommand args).length + recordEnd cmds i := by
  simp [recordEnd]

/-- No record ends at the start. -/
@[simp] theorem recordEnd_zero (cmds : List (List Bytes)) : recordEnd cmds 0 = 0 := rfl

/-- A record is not empty. -/
theorem length_encodeCommand_pos (args : List Bytes) : 0 < (encodeCommand args).length := by
  rw [length_encodeCommand]
  omega

/-- A cut log is its first `n` records followed by a proper prefix `tail` of the next one; the
records that end at or before the cut are the first `n`. -/
theorem take_log (cmds : List (List Bytes)) {c : ℕ}
    (hc : c ≤ (cmds.flatMap encodeCommand).length) :
    ∃ n tail, n ≤ cmds.length ∧
      (cmds.flatMap encodeCommand).take c = (cmds.take n).flatMap encodeCommand ++ tail ∧
      (tail = [] ∨ ∃ args ∈ cmds, tail <+: encodeCommand args ∧
        tail.length < (encodeCommand args).length) ∧
      (∀ i < cmds.length, i < n ↔ recordEnd cmds (i + 1) ≤ c) ∧
      (tail = [] ↔ ∃ i ≤ cmds.length, recordEnd cmds i = c) := by
  induction cmds generalizing c with
  | nil =>
    obtain rfl : c = 0 := by simpa using hc
    exact ⟨0, [], by simp⟩
  | cons args cmds ih =>
    have hpos := length_encodeCommand_pos args
    rw [List.flatMap_cons, List.length_append] at hc
    by_cases hlt : c < (encodeCommand args).length
    · -- the cut falls into the first record
      refine ⟨0, (encodeCommand args).take c, by simp, ?_, ?_, ?_, ?_⟩
      · rw [List.flatMap_cons, List.take_append_of_le_length (by omega)]
        simp
      · refine Or.inr ⟨args, by simp, List.take_prefix _ _, ?_⟩
        rw [List.length_take]
        omega
      · intro i _
        rw [recordEnd_cons_succ]
        omega
      · rw [List.take_eq_nil_iff]
        constructor
        · rintro (rfl | hnil)
          · exact ⟨0, by simp, rfl⟩
          · simp [hnil] at hpos
        · rintro ⟨i, -, rfl⟩
          cases i with
          | zero => exact Or.inl rfl
          | succ i =>
            rw [recordEnd_cons_succ] at hlt
            omega
    · obtain ⟨n, tail, hn, htake, htail, hend, hnil⟩ :=
        ih (show c - (encodeCommand args).length ≤ _ by omega)
      refine ⟨n + 1, tail, by simpa using hn, ?_, ?_, ?_, ?_⟩
      · rw [List.flatMap_cons, List.take_append, List.take_of_length_le (by omega), htake]
        simp
      · refine htail.imp id ?_
        rintro ⟨a, ha, hpre, hl⟩
        exact ⟨a, by simp [ha], hpre, hl⟩
      · intro i hi
        cases i with
        | zero =>
          rw [recordEnd_cons_succ, recordEnd_zero]
          omega
        | succ i =>
          rw [recordEnd_cons_succ, Nat.add_lt_add_iff_right, hend i (by simpa using hi)]
          omega
      · rw [hnil]
        constructor
        · rintro ⟨i, hi, hic⟩
          refine ⟨i + 1, by simpa using hi, ?_⟩
          rw [recordEnd_cons_succ]
          omega
        · rintro ⟨i, hi, hic⟩
          cases i with
          | zero =>
            rw [recordEnd_zero] at hic
            omega
          | succ i =>
            refine ⟨i, by simpa using hi, ?_⟩
            rw [recordEnd_cons_succ] at hic
            omega

/-- **A log cut at any byte.** Replay calls the callback on the records that end at or before the
cut, in order, and reports a partial tail exactly when the cut is not a record boundary. -/
theorem replayFile_take {σ : Type} {path : Bytes} (hpath : pathIsSafe path = true)
    {protocol : ProtocolConfig} {callback : ReplayCallback σ}
    (hcb : ∀ s args, (callback s args).1.isOk = true) (cmds : List (List Bytes))
    (hlim : ∀ args ∈ cmds, WithinLimits (parserOptionsFromConfig protocol) args)
    (hlen : (cmds.flatMap encodeCommand).length ≤ protocol.maxRequestBytes) {c : ℕ}
    (hc : c ≤ (cmds.flatMap encodeCommand).length) (s : σ) :
    ∃ n ≤ cmds.length, (∀ i < cmds.length, i < n ↔ recordEnd cmds (i + 1) ≤ c) ∧
      ∃ ignored : Bool, (ignored = true ↔ ¬ ∃ i ≤ cmds.length, recordEnd cmds i = c) ∧
        replayFile path (some ((cmds.flatMap encodeCommand).take c)) protocol callback 0 s
          = ({ commands := n, ignoredPartialTail := ignored, status := .ok },
              (cmds.take n).foldl (fun s args => (callback s args).2) s) := by
  obtain ⟨n, tail, hn, htake, htail, hend, hnil⟩ := take_log cmds hc
  refine ⟨n, hn, hend, tail.length != 0, ?_, ?_⟩
  · rw [← hnil]
    simp
  have hneed : (⟨parserOptionsFromConfig protocol, tail⟩ : Parser).nextCommand
      = (.needMore, ⟨parserOptionsFromConfig protocol, tail⟩) := by
    rcases htail with rfl | ⟨args, hargs, hpre, hlt⟩
    · rfl
    · exact nextCommand_cut (hlim args hargs) hpre hlt
  rw [replayFile_eq hpath (Nat.zero_le _) (by rw [List.length_take]; omega),
    drain_encode (cmds.take n) (fun a ha => hlim a (List.mem_of_mem_take ha)) htake,
    feed_of_isOk hcb]
  simp only [drain_of_needMore hneed, Parser.bufferedBytes, List.length_take, Nat.min_eq_left hn,
    Nat.zero_add]

/-- `FLUSHDB` and `INCR k`. -/
def twoRecords : List (List Bytes) := [[ascii "FLUSHDB"], [ascii "INCR", ascii "k"]]

/-- The log of two records, cut inside the second. -/
theorem replayFile_take_twoRecords :
    ∃ n ≤ twoRecords.length, (∀ i < twoRecords.length, i < n ↔ recordEnd twoRecords (i + 1) ≤ 20) ∧
      ∃ ignored : Bool, (ignored = true ↔ ¬ ∃ i ≤ twoRecords.length, recordEnd twoRecords i = 20) ∧
        replayFile (ascii "aof") (some ((twoRecords.flatMap encodeCommand).take 20)) {}
            (fun seen args => (.ok, seen ++ [args])) 0 []
          = ({ commands := n, ignoredPartialTail := ignored, status := .ok },
              (twoRecords.take n).foldl (fun seen args => seen ++ [args]) []) :=
  replayFile_take (by decide) (fun _ _ => rfl) twoRecords (by decide) (by decide) (by decide) []

end VeloxDb
