import VeloxDb.Common.Framing
import VeloxDb.Protocol.Grammar
import VeloxDb.Protocol.Stream

/-!
# The texts of a command

A text of a command is what a fresh parser takes for the command, and nothing more: an array, or an
inline line. The parser takes a text for the command whatever stands behind it, so texts are
self-delimiting, and a stream of commands can be read in one way only, although it is not known
beforehand how long each text is, and `max_request_bytes` bounds the parser's buffer and not the
stream.
-/

namespace VeloxDb.Resp

open Framing

/-- The bytes are a text of the command with these arguments. -/
def CommandText (o : ParserOptions) (args : List Bytes) (text : Bytes) : Prop :=
  text.length ≤ o.maxRequestBytes ∧
    (⟨o, text⟩ : Parser).nextCommand = (.ok ⟨args, text⟩, ⟨o, []⟩)

variable {o : ParserOptions}

/-- An inline command is read from its line alone. -/
theorem parseInline_take {buffer : Bytes} {v : Value} {n : ℕ}
    (h : parseInline o buffer 0 = .ok v n) : parseInline o (buffer.take n) 0 = .ok v n := by
  rw [parseInline] at h ⊢
  split at h
  · split_ifs at h
  · next eol heol =>
    rw [findCrlf, List.drop_zero, Option.map_eq_some_iff] at heol
    obtain ⟨i, hi, rfl⟩ := heol
    obtain ⟨line, rest, rfl, rfl, hline⟩ := crlfIndex_eq_some hi
    have htake : (line ++ crlf ++ rest).take (line ++ crlf).length = line ++ crlf := List.take_left
    have hlength : (line ++ crlf).length = 0 + line.length + 2 - 0 := by simp [crlf]
    have hfirst : (line ++ crlf ++ rest).take line.length = line := by
      rw [List.append_assoc, List.take_left]
    have hwhole : findCrlf (line ++ crlf) 0 = some (0 + line.length) :=
      findCrlf_of_drop hline (List.append_nil (line ++ crlf)).symm
    simp only [List.drop_zero, Nat.zero_add, Nat.sub_zero, hfirst] at h
    split_ifs at h with hlong
    cases h
    rw [Nat.zero_add, Nat.sub_zero] at hlength
    rw [← hlength, htake, hwhole]
    simp only [List.drop_zero, Nat.zero_add, Nat.sub_zero, List.take_left, hlong, hlength,
      Bool.false_eq_true, if_false]

/-- What is taken off the front of the buffer is taken off it alone as well. -/
theorem parseFront_take {p : Parser} (hb : p.buffer.length ≤ p.options.maxRequestBytes) {v : Value}
    {n : ℕ} (h : p.parseFront = .ok v n) :
    ({ p with buffer := p.buffer.take n } : Parser).parseFront = .ok v n := by
  have hn := consumed_le_parseFront h
  obtain ⟨o, buffer⟩ := p
  cases buffer with
  | nil => cases h
  | cons ch t =>
    rw [Parser.parseFront] at h
    simp only at h
    split_ifs at h with hfront
    · have hpos := two_le_consumed_parseAt h
      obtain ⟨m, rfl⟩ : ∃ m, n = m + 1 := ⟨n - 1, by omega⟩
      rw [parseFront_of_resp (t := t.take m) rfl hfront]
      rw [parseAt_iff hb] at h
      have hshort : ((ch :: t).take (m + 1)).length ≤ o.maxRequestBytes := by
        simp only [List.length_take] at hb ⊢
        omega
      refine (parseAt_iff hshort _ _ _ _).mpr ?_
      rw [List.drop_zero, begins_iff_take] at h ⊢
      refine ⟨by simpa using h.1, ?_⟩
      rw [List.take_take, min_self]
      exact h.2
    · have hpos := two_le_consumed_parseInline h
      obtain ⟨m, rfl⟩ : ∃ m, n = m + 1 := ⟨n - 1, by omega⟩
      have htake := parseInline_take h
      rw [List.take_succ_cons] at htake ⊢
      rw [Parser.parseFront]
      simp only [hfront, Bool.false_eq_true, if_false]
      exact htake

/-- A command that is taken off the buffer has a text there. -/
theorem commandText_of_nextCommand {p p' : Parser}
    (hb : p.buffer.length ≤ p.options.maxRequestBytes) {c : Command}
    (h : p.nextCommand = (.ok c, p')) : CommandText p.options c.args c.raw := by
  obtain ⟨items, hvalue, hargs⟩ := nextValue_of_nextCommand h
  obtain ⟨n, hfront, hlimit, hraw, -⟩ := parseFront_of_nextValue hvalue
  have hn := consumed_le_parseFront hfront
  have hlength : c.raw.length = n := by
    rw [hraw, List.length_take]
    omega
  refine ⟨by omega, ?_⟩
  have halone : ({ p with buffer := c.raw } : Parser).parseFront = .ok (.array items) n := by
    rw [hraw]
    exact parseFront_take hb hfront
  have hnext : ({ p with buffer := c.raw } : Parser).nextValue
      = (.ok (.array items) c.raw, ⟨p.options, []⟩) := by
    rw [Parser.nextValue, halone]
    simp only
    rw [if_neg (Nat.not_lt.mpr hlimit), Parser.discard, ← hlength, List.take_length, List.drop_length]
  rw [Parser.nextCommand, hnext]
  simp only [hargs]

/-- A text is taken for its command whatever stands behind it. -/
theorem CommandText.nextCommand {args : List Bytes} {text : Bytes} (h : CommandText o args text)
    (rest : Bytes) : (⟨o, text ++ rest⟩ : Parser).nextCommand = (.ok ⟨args, text⟩, ⟨o, rest⟩) :=
  Parser.nextCommand_extend h.1 rest (by simp) h.2

variable (o) in
theorem selfDelimiting_commandText : SelfDelimiting (CommandText o) := by
  rintro args args' text text' h h' ⟨rest, rfl⟩
  have hboth := (h.nextCommand rest).symm.trans h'.2
  rw [Prod.mk.injEq, CommandParseResult.ok.injEq, Command.mk.injEq] at hboth
  exact hboth.1

/-- A buffer that needs more bytes does not begin with a text. -/
theorem not_prefix_of_needMore {buffer : Bytes} {p' : Parser}
    (h : (⟨o, buffer⟩ : Parser).nextCommand = (.needMore, p')) (args : List Bytes) (text : Bytes)
    (htext : CommandText o args text) : ¬ text <+: buffer := by
  rintro ⟨rest, rfl⟩
  rw [htext.nextCommand rest] at h
  cases h

/-- The encoding of a command within the limits. -/
theorem commandText_encodeCommand {args : List Bytes} (h : WithinLimits o args) :
    CommandText o args (encodeCommand args) :=
  ⟨h.request, nextCommand_encode h (List.append_nil _).symm⟩

end VeloxDb.Resp
