import VeloxDb.Protocol.Acceptance

/-!
# Streams that arrive in pieces

What a parser has decided on the bytes that have arrived, a command or an error, it also decides
when more bytes stand behind them (`parseAt_append`, `Parser.nextCommand_extend`); only `needMore`
can change. So the commands that a loop over `next_command` takes from a stream, and the error it
may end with, do not depend on how the stream is cut into packets: draining twice with more bytes in
between is draining once (`drainCommands_extend`).

The limits are checked against positions from the front of the buffer, and every command is taken
off the front before the next is parsed, so the checks do not see the packets either. The request
limit on the whole buffer is what keeps the argument together: under it no line is refused for being
unfinished.
-/

namespace VeloxDb.Resp

open Decimal Util

/-! ## Verdicts are stable -/

/-- A CRLF stays the first one, whatever follows. -/
theorem crlfIndex_append {s : Bytes} {i : ℕ} (h : crlfIndex s = some i) (t : Bytes) :
    crlfIndex (s ++ t) = some i := by
  induction s generalizing i with
  | nil => cases h
  | cons b s ih =>
    rw [crlfIndex.eq_def] at h
    split at h
    · next heq =>
      obtain ⟨rfl, rfl⟩ := List.cons.inj heq
      cases h
      rfl
    · next x rest hne heq =>
      obtain ⟨rfl, rfl⟩ := List.cons.inj heq
      obtain ⟨j, hj, rfl⟩ := Option.map_eq_some_iff.mp h
      -- the rest is not empty, so its first byte does not change
      have hne' : ∀ u, b = 13 → s ++ t = 10 :: u → False := by
        intro u hb hu
        cases s with
        | nil => cases hj
        | cons c s =>
          rw [List.cons_append, List.cons.injEq] at hu
          exact hne s hb (by rw [hu.1])
      rw [List.cons_append, crlfIndex.eq_2 _ _ hne', ih hj]
      rfl
    · cases h

/-- A line ends where it did, whatever follows. -/
theorem findCrlf_append {b : Bytes} {pos eol : ℕ} (h : findCrlf b pos = some eol) (t : Bytes) :
    findCrlf (b ++ t) pos = some eol := by
  have hlt := findCrlf_lt h
  have hle := le_of_findCrlf h
  rw [findCrlf, Option.map_eq_some_iff] at h ⊢
  obtain ⟨i, hi, rfl⟩ := h
  refine ⟨i, ?_, rfl⟩
  rw [List.drop_append_of_le_length (by omega)]
  exact crlfIndex_append hi t

/-- A part of the buffer that has arrived. -/
theorem take_drop_append {b : Bytes} {pos n : ℕ} (h : pos + n ≤ b.length) (t : Bytes) :
    ((b ++ t).drop pos).take n = (b.drop pos).take n := by
  rw [List.drop_append_of_le_length (by omega), List.take_append_of_le_length]
  rw [List.length_drop]
  omega

/-- A bulk string that is complete, or that is refused, stays so. -/
theorem parseBulk_append {o : ParserOptions} {b line : Bytes} {pos afterLine : ℕ}
    (h : parseBulk o b pos afterLine line ≠ .needMore) (t : Bytes) :
    parseBulk o (b ++ t) pos afterLine line = parseBulk o b pos afterLine line := by
  simp only [parseBulk] at h ⊢
  split
  · rfl
  next length hline =>
  simp only [hline] at h
  split
  · rfl
  split
  · rfl
  split
  · rfl
  split
  · rfl
  next hneg hnull hbulk hreq =>
  -- not refused by a limit, so all of it must have arrived
  rw [if_neg hneg, if_neg hnull, if_neg hbulk, if_neg hreq] at h
  have hmore : ¬ b.length < afterLine + length.toNat + 2 := fun hlt => h (if_pos hlt)
  have hmore' : ¬ (b ++ t).length < afterLine + length.toNat + 2 := by
    rw [List.length_append]
    omega
  rw [if_neg hmore, if_neg hmore', List.getElem?_append_left (by omega),
    List.getElem?_append_left (by omega), take_drop_append (by omega)]

/-- What the recursive calls have decided, the element loop has decided. -/
theorem parseElements_append {o : ParserOptions} {parse parse' : ℕ → InternalResult}
    (hparse : ∀ cursor, parse cursor ≠ .needMore → parse' cursor = parse cursor) {pos : ℕ}
    (count cursor : ℕ) (items : List Value)
    (h : parseElements o parse pos count cursor items ≠ .needMore) :
    parseElements o parse' pos count cursor items = parseElements o parse pos count cursor items := by
  induction count generalizing cursor items with
  | zero => rfl
  | succ count ih =>
    have hcursor : parse' cursor = parse cursor := by
      apply hparse
      intro hmore
      exact h (by simp only [parseElements, hmore])
    rw [parseElements, parseElements, hcursor]
    rw [parseElements] at h
    split
    · next value consumed hvalue =>
      rw [hvalue] at h
      split
      · rfl
      · next hlimit =>
        simp only [if_neg hlimit] at h
        exact ih _ _ h
    · rfl
    · rfl

/-- An array that needs no more bytes is read the same, whatever follows. -/
theorem parseArray_append {o : ParserOptions} {parse parse' : ℕ → InternalResult}
    (hparse : ∀ cursor, parse cursor ≠ .needMore → parse' cursor = parse cursor)
    {pos afterLine : ℕ} {line : Bytes} (h : parseArray o parse pos afterLine line ≠ .needMore) :
    parseArray o parse' pos afterLine line = parseArray o parse pos afterLine line := by
  simp only [parseArray] at h ⊢
  split
  · rfl
  next count hline =>
  simp only [hline] at h
  split
  · rfl
  split
  · rfl
  split
  · rfl
  next hneg hnull hcount =>
  rw [if_neg hneg, if_neg hnull, if_neg hcount] at h
  exact parseElements_append hparse _ _ _ h

/-- **Verdicts are stable.** What `parse_at` has decided on a buffer within the request limit, it
decides on every longer buffer. -/
theorem parseAt_append {o : ParserOptions} {b : Bytes} (hb : b.length ≤ o.maxRequestBytes)
    (t : Bytes) (room pos : ℕ) (h : parseAt o b room pos ≠ .needMore) :
    parseAt o (b ++ t) room pos = parseAt o b room pos := by
  -- by induction on the levels that are still allowed: an array hands the rest to its elements
  induction room generalizing pos with
  | zero => rfl
  | succ room ih =>
    simp only [parseAt] at h
    split at h
    · exact absurd rfl h
    next ch hch =>
    split at h
    · -- an unfinished line is not refused
      rw [if_neg (by omega)] at h
      exact absurd rfl h
    next eol heol =>
    have hlt := findCrlf_lt heol
    have hline : ((b ++ t).drop (pos + 1)).take (eol - (pos + 1))
        = (b.drop (pos + 1)).take (eol - (pos + 1)) := by
      have hle := le_of_findCrlf heol
      exact take_drop_append (by omega) t
    have hch' : (b ++ t)[pos]? = some ch := by
      rw [List.getElem?_append_left (List.getElem?_eq_some_iff.mp hch).1, hch]
    simp only [parseAt, hch, hch', heol, findCrlf_append heol t, hline]
    split
    · rfl
    split
    · rfl
    split
    · rfl
    next hplus hminus hcolon =>
    rw [if_neg hplus, if_neg hminus, if_neg hcolon] at h
    split
    · next hbulk =>
      rw [if_pos hbulk] at h
      exact parseBulk_append h t
    next hbulk =>
    rw [if_neg hbulk] at h
    split
    · next harray =>
      rw [if_pos harray] at h
      exact parseArray_append ih h
    · rfl

/-- A line of words that needs no more bytes is read the same, whatever follows. -/
theorem parseInline_append {o : ParserOptions} {b : Bytes} (hb : b.length ≤ o.maxRequestBytes)
    (t : Bytes) (h : parseInline o b 0 ≠ .needMore) :
    parseInline o (b ++ t) 0 = parseInline o b 0 := by
  simp only [parseInline] at h
  split at h
  · rw [if_neg (by omega)] at h
    exact absurd rfl h
  next eol heol =>
  have hlt := findCrlf_lt heol
  simp only [parseInline, heol, findCrlf_append heol t]
  rw [take_drop_append (by omega) t]

/-! ## What is consumed has arrived -/

/-- A bulk string takes no more than there is. -/
theorem consumed_le_parseBulk {o : ParserOptions} {b line : Bytes} {pos afterLine n : ℕ} {v : Value}
    (hpos : pos ≤ afterLine) (hline : afterLine ≤ b.length)
    (h : parseBulk o b pos afterLine line = .ok v n) : pos + n ≤ b.length := by
  rcases parseBulk_ok_cases h with ⟨-, -, rfl⟩ | ⟨len, -, -, hlen, -, -, -, rfl⟩
  · omega
  · omega

/-- The elements take no more than there is. -/
theorem consumed_le_parseElements {o : ParserOptions} {parse : ℕ → InternalResult} {limit pos : ℕ}
    (hparse : ∀ cursor v n, cursor ≤ limit → parse cursor = .ok v n → cursor + n ≤ limit)
    (count cursor : ℕ) (items : List Value) (hpos : pos ≤ cursor) (hcursor : cursor ≤ limit)
    {v : Value} {n : ℕ} (h : parseElements o parse pos count cursor items = .ok v n) :
    pos + n ≤ limit := by
  induction count generalizing cursor items with
  | zero =>
    simp only [parseElements, InternalResult.ok.injEq] at h
    omega
  | succ count ih =>
    obtain ⟨value, consumed, hvalue, -, hrest⟩ := parseElements_succ_iff.mp h
    have hle := hparse cursor value consumed hcursor hvalue
    exact ih (cursor + consumed) _ (by omega) hle hrest

/-- A value takes no more than there is. -/
theorem consumed_le_parseAt {o : ParserOptions} {b : Bytes} {room : ℕ} (pos : ℕ) (v : Value) (n : ℕ)
    (hpos : pos ≤ b.length) (h : parseAt o b room pos = .ok v n) : pos + n ≤ b.length := by
  induction room generalizing pos v n with
  | zero => cases h
  | succ room ih =>
    obtain ⟨below, ch, eol, line, hroom, -, heol, -, ⟨-, rfl⟩ | ⟨-, hbulk⟩ | ⟨-, harray⟩⟩ :=
      parseAt_ok_cases h
    all_goals have hle := le_of_findCrlf heol
    all_goals have hlt := findCrlf_lt heol
    · omega
    · exact consumed_le_parseBulk (by omega) hlt hbulk
    · cases hroom
      rcases parseArray_ok_cases harray with ⟨-, -, rfl⟩ | ⟨count, -, -, helements⟩
      · omega
      · exact consumed_le_parseElements ih _ _ _ (by omega) hlt helements

/-- A line of words takes no more than there is. -/
theorem consumed_le_parseInline {o : ParserOptions} {b : Bytes} {pos n : ℕ} {v : Value}
    (h : parseInline o b pos = .ok v n) : pos + n ≤ b.length := by
  simp only [parseInline] at h
  split at h
  · split_ifs at h
  next eol heol =>
  have hle := le_of_findCrlf heol
  have hlt := findCrlf_lt heol
  split_ifs at h
  cases h
  omega

/-- What is taken off the buffer was in it. -/
theorem consumed_le_parseFront {p : Parser} {v : Value} {n : ℕ} (h : p.parseFront = .ok v n) :
    n ≤ p.buffer.length := by
  rw [Parser.parseFront] at h
  split at h
  · cases h
  split_ifs at h
  · have hle := consumed_le_parseAt 0 v n (Nat.zero_le _) h
    omega
  · have hle := consumed_le_parseInline h
    omega

namespace Parser

/-- The parser with more bytes behind those it holds. -/
def extend (p : Parser) (t : Bytes) : Parser := { p with buffer := p.buffer ++ t }

/-- The front of the buffer is read the same, whatever arrives behind it. -/
theorem parseFront_extend {p : Parser} (hb : p.buffer.length ≤ p.options.maxRequestBytes) (t : Bytes)
    (h : p.parseFront ≠ .needMore) : (p.extend t).parseFront = p.parseFront := by
  obtain ⟨o, b⟩ := p
  cases b with
  | nil => exact absurd rfl h
  | cons ch b =>
    simp only [parseFront, extend, List.cons_append] at h ⊢
    split
    · next hprefix =>
      rw [if_pos hprefix] at h
      exact parseAt_append hb t _ _ h
    · next hprefix =>
      rw [if_neg hprefix] at h
      exact parseInline_append hb t h

/-- The value, or the error, at the front of the buffer does not depend on what arrives behind it.
-/
theorem nextValue_extend {p p' : Parser} (hb : p.buffer.length ≤ p.options.maxRequestBytes) (t : Bytes)
    {r : ValueParseResult} (hr : r ≠ .needMore) (h : p.nextValue = (r, p')) :
    (p.extend t).nextValue = (r, p'.extend t) := by
  rw [nextValue] at h
  split at h
  · cases h
    exact absurd rfl hr
  · next message hfront =>
    cases h
    rw [nextValue, parseFront_extend hb t (by simp [hfront]), hfront]
  · next value consumed hfront =>
    have hle := consumed_le_parseFront hfront
    have hlimit : ¬ consumed > p.options.maxRequestBytes := by omega
    have hlimit' : ¬ consumed > (p.extend t).options.maxRequestBytes := hlimit
    rw [nextValue, parseFront_extend hb t (by simp [hfront]), hfront]
    simp only [if_neg hlimit, if_neg hlimit'] at h ⊢
    cases h
    simp only [extend, discard, List.take_append_of_le_length hle,
      List.drop_append_of_le_length hle]

/-- A request, or a refusal, is the same, whatever arrives behind it. -/
theorem nextCommand_extend {p p' : Parser} (hb : p.buffer.length ≤ p.options.maxRequestBytes)
    (t : Bytes) {r : CommandParseResult} (hr : r ≠ .needMore) (h : p.nextCommand = (r, p')) :
    (p.extend t).nextCommand = (r, p'.extend t) := by
  rw [nextCommand] at h
  split at h
  · cases h
    exact absurd rfl hr
  · next message q hvalue =>
    cases h
    rw [nextCommand, nextValue_extend hb t (by simp) hvalue]
  · next items raw q hvalue =>
    rw [nextCommand, nextValue_extend hb t (by simp) hvalue]
    simp only
    split at h <;> cases h <;> rfl
  · next v raw q hne hvalue =>
    cases h
    rw [nextCommand, nextValue_extend hb t (by simp) hvalue]
    cases v with
    | array items => exact (hne items rfl).elim
    | _ => rfl

/-- A buffer without a whole request stays as it is. -/
theorem nextCommand_needMore {p p' : Parser} (h : p.nextCommand = (.needMore, p')) : p' = p := by
  rw [nextCommand] at h
  split at h
  · next q hvalue =>
    cases h
    rw [nextValue] at hvalue
    split at hvalue
    · cases hvalue
      rfl
    · cases hvalue
    · split_ifs at hvalue <;> cases hvalue
  · cases h
  · split at h <;> cases h
  · cases h

/-- A command's raw bytes and what is left behind it are the buffer. -/
theorem raw_append_buffer {p p' : Parser} {c : Command} (h : p.nextCommand = (.ok c, p')) :
    c.raw ++ p'.buffer = p.buffer ∧ p'.options = p.options := by
  obtain ⟨items, hvalue, -⟩ := nextValue_of_nextCommand h
  obtain ⟨n, -, -, hraw, rfl⟩ := parseFront_of_nextValue hvalue
  rw [hraw]
  exact ⟨List.take_append_drop n p.buffer, rfl⟩

/-- `next_command` takes bytes from the front of the buffer, if anything, and changes nothing else. -/
theorem nextCommand_discards {p p' : Parser} {r : CommandParseResult} (h : p.nextCommand = (r, p')) :
    ∃ n, p' = p.discard n := by
  have hnothing : p = p.discard 0 := by rw [discard, List.drop_zero]
  have hvalue : ∃ n, p.nextValue.2 = p.discard n := by
    rw [nextValue]
    split
    · exact ⟨0, hnothing⟩
    · exact ⟨0, hnothing⟩
    · split_ifs
      · exact ⟨0, hnothing⟩
      · exact ⟨_, rfl⟩
  have hsame : p.nextCommand.2 = p.nextValue.2 := by
    rw [nextCommand]
    split
    · next hv => rw [hv]
    · next hv => rw [hv]
    · next hv => split <;> rw [hv]
    · next hv => rw [hv]
  rwa [← hsame, h] at hvalue

end Parser

/-! ## The loop over `next_command` -/

/-- What the loop has taken from the stream, and the error that ended it, if one did. -/
structure Drained where
  commands : List Command := []
  parser : Parser
  error : Option Bytes := none
deriving DecidableEq, Repr

/-- One round: a command is kept, `NeedMore` and `Error` leave the loop. -/
def drainCommandsRound : List Command × Parser → (List Command × Parser) ⊕ Drained
  | (commands, parser) =>
    match parser.nextCommand with
    | (.needMore, parser') => .inr ⟨commands, parser', none⟩
    | (.error message, parser') => .inr ⟨commands, parser', some message⟩
    | (.ok command, parser') => .inl (commands ++ [command], parser')

/-- A round takes bytes off the buffer. -/
theorem drainCommandsRound_lowers :
    Loop.Lowers drainCommandsRound fun t => t.2.buffer.length := by
  rintro ⟨commands, parser⟩ t h
  simp only [drainCommandsRound] at h
  split at h
  · cases h
  · cases h
  · next command parser' hnext =>
    cases h
    exact length_buffer_lt_of_nextCommand hnext

/-- Call `next_command` until it returns `NeedMore` or `Error`. -/
def drainCommands (commands : List Command) (parser : Parser) : Drained :=
  Loop.runUntil drainCommandsRound (fun t => t.2.buffer.length) drainCommandsRound_lowers
    (commands, parser)

/-- Append a chunk and drain, unless an error has ended the stream. -/
def feedChunk (d : Drained) (chunk : Bytes) : Drained :=
  match d.error with
  | some _ => d
  | none =>
    let (status, parser) := d.parser.append chunk
    if status.isOk then drainCommands d.commands parser
    else { d with error := some status.message }

/-- What the chunks of a stream have come to. -/
def feedChunks (o : ParserOptions) (chunks : List Bytes) : Drained :=
  chunks.foldl feedChunk { parser := { options := o } }

/-- A request is taken off, and the rest is drained. -/
theorem drainCommands_of_ok {commands : List Command} {p p' : Parser} {c : Command}
    (h : p.nextCommand = (.ok c, p')) :
    drainCommands commands p = drainCommands (commands ++ [c]) p' :=
  Loop.runUntil_of_inl _ (by simp only [drainCommandsRound, h])

/-- Without a whole request nothing more is taken off. -/
theorem drainCommands_of_needMore {commands : List Command} {p p' : Parser}
    (h : p.nextCommand = (.needMore, p')) : drainCommands commands p = ⟨commands, p', none⟩ :=
  Loop.runUntil_of_inr _ (by simp only [drainCommandsRound, h])

/-- A refusal ends it. -/
theorem drainCommands_of_error {commands : List Command} {p p' : Parser} {message : Bytes}
    (h : p.nextCommand = (.error message, p')) :
    drainCommands commands p = ⟨commands, p', some message⟩ :=
  Loop.runUntil_of_inr _ (by simp only [drainCommandsRound, h])

/-- The raw bytes of the commands that were kept and the buffer that is left are the stream. -/
theorem raws_append_buffer {o : ParserOptions} {s : Bytes}
    (h : (drainCommands [] ⟨o, s⟩).error = none) :
    ((drainCommands [] ⟨o, s⟩).commands.map Command.raw).flatten
        ++ (drainCommands [] ⟨o, s⟩).parser.buffer = s ∧
      (drainCommands [] ⟨o, s⟩).parser.options = o := by
  revert h
  refine Loop.runUntil_induction (I := fun t => (t.1.map Command.raw).flatten ++ t.2.buffer = s ∧
      t.2.options = o) (Q := fun d => d.error = none →
      (d.commands.map Command.raw).flatten ++ d.parser.buffer = s ∧ d.parser.options = o)
    drainCommandsRound_lowers ?_ ?_ ⟨rfl, rfl⟩
  · rintro ⟨commands, p⟩ t ⟨hs, ho⟩ hround
    simp only [drainCommandsRound] at hround
    split at hround
    · cases hround
    · cases hround
    · next command p' hnext =>
      cases hround
      obtain ⟨hraw, hoptions⟩ := Parser.raw_append_buffer hnext
      refine ⟨?_, hoptions.trans ho⟩
      rw [List.map_append, List.flatten_append, List.append_assoc, ← hs, ← hraw]
      simp
  · rintro ⟨commands, p⟩ d ⟨hs, ho⟩ hround herror
    simp only [drainCommandsRound] at hround
    split at hround
    · next p' hnext =>
      cases hround
      cases Parser.nextCommand_needMore hnext
      exact ⟨hs, ho⟩
    · cases hround
      cases herror
    · cases hround

/-- Draining twice, with more bytes in between, is draining once. -/
theorem drainCommands_extend {p : Parser} {t : Bytes} (commands : List Command)
    (hb : p.buffer.length ≤ p.options.maxRequestBytes) :
    drainCommands commands (p.extend t) =
      match (drainCommands commands p).error with
      | none => drainCommands (drainCommands commands p).commands
          ((drainCommands commands p).parser.extend t)
      | some _ => { drainCommands commands p with
          parser := (drainCommands commands p).parser.extend t } := by
  -- by induction on the buffer: a command that is taken leaves less of it
  induction hn : p.buffer.length using Nat.strongRecOn generalizing p commands with
  | ind n ih =>
    rcases hnext : p.nextCommand with ⟨r, p'⟩
    cases r with
    | needMore =>
      cases Parser.nextCommand_needMore hnext
      rw [drainCommands_of_needMore hnext]
    | error message =>
      rw [drainCommands_of_error hnext,
        drainCommands_of_error (Parser.nextCommand_extend hb t (by simp) hnext)]
    | ok c =>
      have hlt := length_buffer_lt_of_nextCommand hnext
      have hoptions := (Parser.raw_append_buffer hnext).2
      rw [drainCommands_of_ok hnext,
        drainCommands_of_ok (Parser.nextCommand_extend hb t (by simp) hnext)]
      exact ih _ (by omega) _ (by rw [hoptions]; omega) rfl

/-- The same commands and the same end; while the stream goes on, the same parser. -/
structure SameEnd (d d' : Drained) : Prop where
  commands : d.commands = d'.commands
  error : d.error = d'.error
  parser : d.error = none → d.parser = d'.parser

/-- A chunk more, fed or there from the start: the parser ends up the same. -/
theorem SameEnd.feedChunk {o : ParserOptions} {s chunk : Bytes} {d : Drained}
    (h : SameEnd d (drainCommands [] ⟨o, s⟩)) (hlen : (s ++ chunk).length ≤ o.maxRequestBytes) :
    SameEnd (feedChunk d chunk) (drainCommands [] ⟨o, s ++ chunk⟩) := by
  rw [List.length_append] at hlen
  have hwhole := @drainCommands_extend ⟨o, s⟩ chunk [] (by simp only; omega)
  rw [show (⟨o, s⟩ : Parser).extend chunk = ⟨o, s ++ chunk⟩ from rfl] at hwhole
  cases herror : d.error with
  | some message =>
    rw [← h.error, herror] at hwhole
    rw [hwhole, Resp.feedChunk, herror]
    exact ⟨h.commands, by rw [← h.error], by simp [herror]⟩
  | none =>
    have hnone : (drainCommands [] ⟨o, s⟩).error = none := by rw [← h.error, herror]
    obtain ⟨hbuffer, hoptions⟩ := raws_append_buffer hnone
    have hle : (drainCommands [] ⟨o, s⟩).parser.buffer.length ≤ s.length := by
      rw [← congrArg List.length hbuffer, List.length_append]
      omega
    have happend : (drainCommands [] ⟨o, s⟩).parser.append chunk
        = (.ok, (drainCommands [] ⟨o, s⟩).parser.extend chunk) := by
      rw [Parser.append, Parser.extend, hoptions, if_neg (by omega)]
    rw [← h.error, herror] at hwhole
    rw [hwhole, Resp.feedChunk, herror, h.parser herror, happend, h.commands]
    exact ⟨rfl, rfl, fun _ => rfl⟩

/-- A chunk after another. -/
theorem sameEnd_foldl {o : ParserOptions} (chunks : List Bytes) {s : Bytes} {d : Drained}
    (h : SameEnd d (drainCommands [] ⟨o, s⟩))
    (hlen : (s ++ chunks.flatten).length ≤ o.maxRequestBytes) :
    SameEnd (chunks.foldl feedChunk d) (drainCommands [] ⟨o, s ++ chunks.flatten⟩) := by
  induction chunks generalizing s d with
  | nil => simpa using h
  | cons chunk chunks ih =>
    rw [List.flatten_cons, ← List.append_assoc] at hlen ⊢
    refine ih (h.feedChunk ?_) hlen
    rw [List.length_append] at hlen
    omega

/-- A fresh parser, before anything has arrived. -/
theorem drainCommands_fresh (o : ParserOptions) :
    drainCommands [] { options := o } = { parser := { options := o } } :=
  drainCommands_of_needMore rfl

/-- The chunks come to the same end as the whole stream. -/
theorem sameEnd_feedChunks {o : ParserOptions} {chunks : List Bytes}
    (h : chunks.flatten.length ≤ o.maxRequestBytes) :
    SameEnd (feedChunks o chunks) (drainCommands [] ⟨o, chunks.flatten⟩) := by
  apply sameEnd_foldl chunks (s := []) _ (by simpa using h)
  rw [drainCommands_fresh]
  exact ⟨rfl, rfl, fun _ => rfl⟩

/-- **Packets do not matter.** A stream within the request limit, well formed or not, gives the same
commands and ends with the same status whether it arrives in chunks or at once. Every drain ends,
and while there is no error nothing is lost: the raw commands and the buffer are the stream. -/
theorem feedChunks_eq_whole {o : ParserOptions} {chunks : List Bytes}
    (h : chunks.flatten.length ≤ o.maxRequestBytes) :
    ((feedChunks o chunks).commands = (feedChunks o [chunks.flatten]).commands ∧
      (feedChunks o chunks).error = (feedChunks o [chunks.flatten]).error) ∧
    (∀ (commands : List Command) (parser : Parser),
      Loop.runFor drainCommandsRound (parser.buffer.length + 1) (commands, parser)
        = some (drainCommands commands parser)) ∧
    ((feedChunks o chunks).error = none →
      ∀ d ∈ [feedChunks o chunks, feedChunks o [chunks.flatten]],
        (d.commands.map Command.raw).flatten ++ d.parser.buffer = chunks.flatten) := by
  have hcut := sameEnd_feedChunks h
  have hwhole : SameEnd (feedChunks o [chunks.flatten]) (drainCommands [] ⟨o, chunks.flatten⟩) := by
    have hone : SameEnd (feedChunks o [chunks.flatten])
        (drainCommands [] ⟨o, [chunks.flatten].flatten⟩) := sameEnd_feedChunks (by simpa using h)
    simpa using hone
  refine ⟨⟨hcut.commands.trans hwhole.commands.symm, hcut.error.trans hwhole.error.symm⟩,
    fun commands parser => (Option.some_get _).symm, ?_⟩
  intro herror d hd
  have hstream := (raws_append_buffer (hcut.error ▸ herror)).1
  simp only [List.mem_cons, List.not_mem_nil, or_false] at hd
  rcases hd with rfl | rfl
  · rw [hcut.commands, hcut.parser herror]
    exact hstream
  · rw [hwhole.commands, hwhole.parser (by rw [hwhole.error, ← hcut.error, herror])]
    exact hstream

/-- A command that is cut inside its count, its length line and its text, with another behind it. -/
def cutPing : List Bytes :=
  [ascii "*", ascii "1\r\n$4\r", ascii "\nPI", ascii "NG\r\nGET k\r\n*"]

theorem feedChunks_cutPing :
    cutPing.flatten.length ≤ ({} : ParserOptions).maxRequestBytes ∧
      (feedChunks {} cutPing).commands = (feedChunks {} [cutPing.flatten]).commands ∧
      (feedChunks {} cutPing).commands.map Command.args = [[ascii "PING"], [ascii "GET", ascii "k"]] := by
  have hlen : cutPing.flatten.length ≤ ({} : ParserOptions).maxRequestBytes := by decide +kernel
  exact ⟨hlen, (feedChunks_eq_whole hlen).1.1, by decide +kernel⟩

end VeloxDb.Resp
