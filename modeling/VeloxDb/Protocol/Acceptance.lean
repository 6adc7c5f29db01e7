import VeloxDb.Protocol.Framing

/-!
# What a parser accepts is within its limits

`WithinLimits` is sufficient for an encoded command to be read back (`nextCommand_encode`). It is
also necessary: a fresh parser that takes an encoded command has found its count, its lengths and
its size within the limits (`withinLimits_of_accepted`). A command that arrives as an array of bulk
strings is within them as it is (`withinLimits_of_bulkArray`).
-/

namespace VeloxDb.Resp

open Decimal Util

/-! ## Canonical lines -/

/-- A printed count that is read is that count, within the bound. -/
theorem parseNumberLine_print_cases {n : ℕ} {i : ℤ} (h : parseNumberLine (print n) = some i) :
    i = n ∧ n ≤ maxSize := by
  rw [parseNumberLine, if_neg (print_ne_nil n)] at h
  obtain ⟨digits, -, -, ⟨hs, -, -⟩ | ⟨hs, rfl, hmax⟩⟩ := wholeI64_cases h
  · have hminus := print_isDigit n 45 (by simp [hs])
    cases hminus
  · rw [← hs, read_print] at hmax ⊢
    simp only [int64Max] at hmax
    exact ⟨rfl, by rw [maxSize]; omega⟩

/-- A length line that was accepted was within the limits. -/
theorem le_of_parseBulk_print {o : ParserOptions} {buffer : Bytes} {pos afterLine n consumed : ℕ}
    {v : Value} (h : parseBulk o buffer pos afterLine (print n) = .ok v consumed) :
    n ≤ o.maxBulkBytes ∧ n ≤ maxSize := by
  rcases parseBulk_ok_cases h with ⟨hline, -⟩ | ⟨len, hline, hbulk, -⟩
  · cases (parseNumberLine_print_cases hline).1
  · obtain ⟨hlen, hsize⟩ := parseNumberLine_print_cases hline
    exact ⟨by omega, hsize⟩

/-- Elements that were accepted were within the limits. -/
theorem le_of_parseElements_fragments {o : ParserOptions} {buffer rest : Bytes} {room pos : ℕ}
    (args : List Bytes) (cursor : ℕ) (items : List Value) {v : Value} {n : ℕ}
    (hd : buffer.drop cursor = args.flatMap bulkStringFragment ++ rest)
    (hreq : cursor + (args.flatMap bulkStringFragment).length ≤ o.maxRequestBytes)
    (h : parseElements o (parseAt o buffer (room + 1)) pos args.length cursor items = .ok v n) :
    ∀ a ∈ args, a.length ≤ o.maxBulkBytes ∧ a.length ≤ maxSize := by
  induction args generalizing cursor items with
  | nil => simp
  | cons a args ih =>
    simp only [List.flatMap_cons, List.length_append] at hreq
    have hd' : buffer.drop cursor
        = bulkStringFragment a ++ (args.flatMap bulkStringFragment ++ rest) := by
      rw [hd, List.flatMap_cons, List.append_assoc]
    have hline : buffer.drop cursor
        = 36 :: (print a.length ++ crlf ++ (a ++ crlf ++ (args.flatMap bulkStringFragment ++ rest))) := by
      rw [hd']
      simp [bulkStringFragment, List.append_assoc]
    have hparse : parseAt o buffer (room + 1) cursor = _ :=
      (parseAt_of_line (not_mem_print _) hline).1 rfl
    -- the head was accepted, so it is within the limits, and the loop went on behind it
    have ha : a.length ≤ o.maxBulkBytes ∧ a.length ≤ maxSize := by
      obtain ⟨value, consumed, hvalue, -⟩ := parseElements_succ_iff.mp h
      rw [hparse] at hvalue
      exact le_of_parseBulk_print hvalue
    have hfragment := parseAt_fragment room hd' ha.1 (by omega) ha.2
    simp only [List.length_cons, parseElements, hfragment] at h
    rw [if_neg (by omega)] at h
    intro b hb
    rcases List.mem_cons.mp hb with rfl | hb
    · exact ha
    · exact ih _ _ (drop_add_of_drop_eq hd') (by omega) h b hb

/-- A count line that was accepted was within the limits. -/
theorem le_of_parseArray_print {o : ParserOptions} {parse : ℕ → InternalResult}
    {pos afterLine n consumed : ℕ} {v : Value}
    (h : parseArray o parse pos afterLine (print n) = .ok v consumed) :
    n ≤ o.maxArrayElements ∧ n ≤ maxSize ∧
      parseElements o parse pos n afterLine [] = .ok v consumed := by
  rcases parseArray_ok_cases h with ⟨hline, -⟩ | ⟨count, hline, hcount, helements⟩
  · cases (parseNumberLine_print_cases hline).1
  · obtain ⟨hlen, hsize⟩ := parseNumberLine_print_cases hline
    obtain rfl : count = n := by omega
    exact ⟨hcount, hsize, helements⟩

/-! ## Encoded commands -/

/-- A value that `next_value` returns was parsed at the front of the buffer. -/
theorem parseFront_of_nextValue {p p' : Parser} {v : Value} {raw : Bytes}
    (h : p.nextValue = (.ok v raw, p')) :
    ∃ n, p.parseFront = .ok v n ∧ n ≤ p.options.maxRequestBytes ∧ raw = p.buffer.take n ∧
      p' = p.discard n := by
  rw [Parser.nextValue] at h
  split at h
  · cases h
  · cases h
  · next value consumed hfront =>
    split_ifs at h with hlimit
    · cases h
    · cases h
      exact ⟨consumed, hfront, by omega, rfl, rfl⟩

/-- A command that `next_command` returns was an array. -/
theorem nextValue_of_nextCommand {p p' : Parser} {c : Command} (h : p.nextCommand = (.ok c, p')) :
    ∃ items, p.nextValue = (.ok (.array items) c.raw, p') ∧ commandArgs items = .ok c.args := by
  rw [Parser.nextCommand] at h
  split at h
  · cases h
  · cases h
  · next items raw p₁ hvalue =>
    split at h
    · cases h
    · next args hargs =>
      cases h
      exact ⟨items, hvalue, hargs⟩
  · cases h

/-- Bytes that a new parser accepts are its buffer, within the bound. -/
theorem append_fresh_cases {o : ParserOptions} {bytes : Bytes} {p : Parser}
    (h : ({ options := o } : Parser).append bytes = (.ok, p)) :
    bytes.length ≤ o.maxRequestBytes ∧ p = ⟨o, bytes⟩ := by
  by_cases hlen : bytes.length ≤ o.maxRequestBytes
  · rw [append_fresh hlen] at h
    cases h
    exact ⟨hlen, rfl⟩
  · rw [Parser.append, if_pos (.inl (by simpa using hlen))] at h
    cases h

/-- An encoded command that a fresh parser takes was within the limits. -/
theorem withinLimits_of_accepted {o : ParserOptions} {args : List Bytes} {p p' : Parser} {c : Command}
    (happend : ({ options := o } : Parser).append (encodeCommand args) = (.ok, p))
    (hnext : p.nextCommand = (.ok c, p')) : WithinLimits o args := by
  obtain ⟨hlen, rfl⟩ := append_fresh_cases happend
  have hsize := length_encodeCommand args
  obtain ⟨items, hvalue, -⟩ := nextValue_of_nextCommand hnext
  obtain ⟨n, hfront, -⟩ := parseFront_of_nextValue hvalue
  rw [parseFront_of_resp (encodeCommand_eq args) rfl] at hfront
  have hd : (encodeCommand args).drop 0
      = 42 :: (print args.length ++ crlf ++ args.flatMap bulkStringFragment) := encodeCommand_eq args
  rw [(parseAt_of_line (not_mem_print _) hd).2 rfl] at hfront
  obtain ⟨helements, hcount, hparse⟩ := le_of_parseArray_print hfront
  have hbody : (encodeCommand args).drop (0 + (print args.length).length + 3)
      = args.flatMap bulkStringFragment ++ [] := by
    have hsplit : (encodeCommand args).drop 0
        = (42 :: (print args.length ++ crlf)) ++ args.flatMap bulkStringFragment := by simpa using hd
    rw [List.append_nil, ← drop_add_of_drop_eq hsplit]
    congr 1
    simp [crlf]
  have hparse' : parseElements o (parseAt o (encodeCommand args) (7 + 1)) 0 args.length
      (0 + (print args.length).length + 3) [] = .ok (.array items) n := hparse
  have hargs := le_of_parseElements_fragments args _ _ hbody (by omega) hparse'
  exact ⟨helements, fun a ha => (hargs a ha).1, hlen, hcount, fun a ha => (hargs a ha).2⟩

/-- A fresh parser with these options takes the encoding of the command and reads the command back.
-/
def ReadBack (o : ParserOptions) (args : List Bytes) : Prop :=
  ∃ p, ({ options := o } : Parser).append (encodeCommand args) = (.ok, p) ∧
    ∃ raw p', p.nextCommand = (.ok ⟨args, raw⟩, p')

/-- A record is read back exactly if it is within the limits. -/
theorem readBack_iff {o : ParserOptions} {args : List Bytes} :
    ReadBack o args ↔ WithinLimits o args := by
  constructor
  · rintro ⟨p, happend, raw, p', hnext⟩
    exact withinLimits_of_accepted happend hnext
  · intro h
    have hnext := nextCommand_encode (p := ⟨o, encodeCommand args⟩) h (List.append_nil _).symm
    exact ⟨_, append_fresh h.request, _, _, hnext⟩

/-! ## Arrays of bulk strings

A client may write its numbers with leading zeros, but never in fewer bytes than the encoder, so an
array of bulk strings that was accepted is within the limits when it is encoded again. -/

/-- A bulk string within the limits, whose encoding takes at most `n` bytes. -/
structure BulkFits (o : ParserOptions) (n : ℕ) (text : Bytes) : Prop where
  bulk : text.length ≤ o.maxBulkBytes
  size : text.length ≤ maxSize
  fragment : (bulkStringFragment text).length ≤ n

/-- A count is printed as a number. -/
theorem printInt_natCast (n : ℕ) : printInt (n : ℤ) = print n := by
  rw [printInt, if_neg (by omega), Int.natAbs_natCast]

/-- What a number line says about the number: it is an `int64_t`, and its numeral is not longer. -/
theorem of_parseNumberLine {line : Bytes} {n : ℕ} (h : parseNumberLine line = some (n : ℤ)) :
    n ≤ maxSize ∧ (print n).length ≤ line.length := by
  rw [parseNumberLine] at h
  split_ifs at h
  obtain ⟨-, hmax⟩ := inI64_of_wholeI64 h
  have hlen := length_printInt_le_of_wholeI64 h
  rw [printInt_natCast] at hlen
  simp only [int64Max] at hmax
  exact ⟨by rw [maxSize]; omega, hlen⟩

/-- A bulk string that is parsed fits. -/
theorem bulkFits_of_parseBulk {o : ParserOptions} {buffer line text : Bytes} {pos n : ℕ}
    (h : parseBulk o buffer pos (pos + line.length + 3) line = .ok (.bulkString text) n) :
    BulkFits o n text := by
  rcases parseBulk_ok_cases h with ⟨-, hv, -⟩ | ⟨len, hline, hbulk, hmore, -, -, hv, rfl⟩
  · cases hv
  · cases hv
    obtain ⟨hsize, hprint⟩ := of_parseNumberLine hline
    have hlen : ((buffer.drop (pos + line.length + 3)).take len).length = len := by
      rw [List.length_take, List.length_drop]
      omega
    refine ⟨by omega, by omega, ?_⟩
    rw [length_bulkStringFragment, hlen]
    omega

/-- A CRLF is within the buffer. -/
theorem findCrlf_lt {buffer : Bytes} {pos eol : ℕ} (h : findCrlf buffer pos = some eol) :
    eol + 2 ≤ buffer.length := by
  have hindex : ∀ (s : Bytes) (i : ℕ), crlfIndex s = some i → i + 2 ≤ s.length := by
    intro s
    induction s with
    | nil => intro i hi; cases hi
    | cons b t ih =>
      intro i hi
      rw [crlfIndex.eq_def] at hi
      split at hi
      · next heq =>
        cases hi
        simp [List.cons.inj heq |>.2]
      · next heq =>
        obtain ⟨j, hj, rfl⟩ := Option.map_eq_some_iff.mp hi
        obtain ⟨-, rfl⟩ := List.cons.inj heq
        have := ih j hj
        simp only [List.length_cons]
        omega
      · cases hi
  rw [findCrlf, Option.map_eq_some_iff] at h
  obtain ⟨i, hi, rfl⟩ := h
  have hle := hindex _ _ hi
  rw [List.length_drop] at hle
  omega

/-- The elements that the loop has read, each with the bytes it took. -/
theorem parseElements_ok {o : ParserOptions} {parse : ℕ → InternalResult} {good : Value → ℕ → Prop}
    (hgood : ∀ cursor v n, parse cursor = .ok v n → good v n) {pos : ℕ} (count cursor : ℕ)
    (items : List Value) {v : Value} {n : ℕ}
    (h : parseElements o parse pos count cursor items = .ok v n) :
    ∃ read : List (Value × ℕ), v = .array (items ++ read.map Prod.fst) ∧ read.length = count ∧
      n = cursor + (read.map Prod.snd).sum - pos ∧ ∀ x ∈ read, good x.1 x.2 := by
  induction count generalizing cursor items with
  | zero =>
    simp only [parseElements, InternalResult.ok.injEq] at h
    exact ⟨[], by simp [h.1], rfl, by simp [h.2], by simp⟩
  | succ count ih =>
    obtain ⟨value, consumed, hparse, -, hrest⟩ := parseElements_succ_iff.mp h
    obtain ⟨read, hv, hlen, hn, hread⟩ := ih _ _ hrest
    refine ⟨(value, consumed) :: read, by simpa using hv, by simp [hlen], ?_, ?_⟩
    · rw [hn, List.map_cons, List.sum_cons, Nat.add_assoc]
    · intro x hx
      rcases List.mem_cons.mp hx with rfl | hx
      · exact hgood _ _ _ hparse
      · exact hread x hx

/-- An array that was accepted, with the bytes that each element took. -/
theorem parseArray_ok {o : ParserOptions} {parse : ℕ → InternalResult} {good : Value → ℕ → Prop}
    (hgood : ∀ cursor v n, parse cursor = .ok v n → good v n) {pos afterLine n : ℕ} {line : Bytes}
    {v : Value} (h : parseArray o parse pos afterLine line = .ok v n) :
    v = .nullArray ∨ ∃ read : List (Value × ℕ), v = .array (read.map Prod.fst) ∧
      read.length ≤ o.maxArrayElements ∧ read.length ≤ maxSize ∧
      (print read.length).length ≤ line.length ∧
      n = afterLine + (read.map Prod.snd).sum - pos ∧ ∀ x ∈ read, good x.1 x.2 := by
  rcases parseArray_ok_cases h with ⟨-, hv, -⟩ | ⟨count, hline, hcount, helements⟩
  · exact .inl hv
  · obtain ⟨read, hv, rfl, hn, hread⟩ := parseElements_ok hgood _ _ _ helements
    obtain ⟨hsize, hprint⟩ := of_parseNumberLine hline
    exact .inr ⟨read, hv, hcount, hsize, hprint, hn, hread⟩

/-- A bulk string that was parsed is within the limits. -/
theorem bulkFits_of_parseAt {o : ParserOptions} {buffer text : Bytes} {room pos n : ℕ}
    (h : parseAt o buffer room pos = .ok (.bulkString text) n) : BulkFits o n text := by
  obtain ⟨below, ch, eol, line, -, -, heol, hline, ⟨hsimple, -⟩ | ⟨-, hbulk⟩ | ⟨-, harray⟩⟩ :=
    parseAt_ok_cases h
  · rcases hsimple with ⟨-, hv⟩ | ⟨-, hv⟩ | ⟨-, number, hv⟩ <;> cases hv
  · have hle := le_of_findCrlf heol
    have hlt := findCrlf_lt heol
    have hlen : line.length = eol - (pos + 1) := by
      rw [hline, List.length_take, List.length_drop]
      omega
    apply bulkFits_of_parseBulk
    rw [hlen]
    convert hbulk using 2
    omega
  · -- an array is not a bulk string
    have hany : ∀ cursor v n, parseAt o buffer below cursor = .ok v n → True := fun _ _ _ _ => trivial
    obtain hnull | ⟨read, hread, -⟩ := parseArray_ok hany harray
    · cases hnull
    · cases hread

/-- An array of bulk strings that was read off a buffer is within the limits when it is encoded. -/
theorem withinLimits_of_bulkArray {p p' : Parser} {args : List Bytes} {raw : Bytes}
    (hstar : p.buffer.head? = some 42)
    (h : p.nextValue = (.ok (.array (args.map .bulkString)) raw, p')) :
    WithinLimits p.options args := by
  obtain ⟨n, hfront, hn, -, -⟩ := parseFront_of_nextValue h
  obtain ⟨t, hb⟩ : ∃ t, p.buffer = 42 :: t := by
    cases hp : p.buffer with
    | nil => simp [hp] at hstar
    | cons ch t =>
      rw [hp, List.head?_cons, Option.some.injEq] at hstar
      exact ⟨t, by rw [hstar]⟩
  rw [parseFront_of_resp hb rfl] at hfront
  have hch : p.buffer[0]? = some 42 := by simp [hb]
  simp only [parseAt, hch, Nat.zero_add] at hfront
  split at hfront
  · split_ifs at hfront
  next eol heol =>
  have hle := le_of_findCrlf heol
  have hlt := findCrlf_lt heol
  -- the elements, with the bytes that they took
  have hbulk : ∀ cursor v n, parseAt p.options p.buffer kMaxDepth cursor = .ok v n →
      ∀ text, v = .bulkString text → BulkFits p.options n text := by
    rintro cursor v n hparse text rfl
    exact bulkFits_of_parseAt hparse
  obtain hnull | ⟨read, hread, helements, hcount, hprint, hconsumed, hgood⟩ :=
    parseArray_ok hbulk hfront
  · cases hnull
  simp only [Value.array.injEq] at hread
  have hlen : args.length = read.length := by simpa using congrArg List.length hread
  have hfits : ∀ (args : List Bytes) (read : List (Value × ℕ)),
      args.map Value.bulkString = read.map Prod.fst →
      (∀ x ∈ read, ∀ text, x.1 = .bulkString text → BulkFits p.options x.2 text) →
      (args.flatMap bulkStringFragment).length ≤ (read.map Prod.snd).sum ∧
        ∀ a ∈ args, a.length ≤ p.options.maxBulkBytes ∧ a.length ≤ maxSize := by
    intro args
    induction args with
    | nil => simp
    | cons a args ih =>
      intro read hmap hread
      cases read with
      | nil => cases hmap
      | cons x read =>
        simp only [List.map_cons, List.cons.injEq] at hmap
        have ha := hread x (by simp) a hmap.1.symm
        obtain ⟨hsum, hargs⟩ := ih read hmap.2 fun y hy => hread y (by simp [hy])
        have hfragment := ha.fragment
        simp only [List.flatMap_cons, List.length_append, List.map_cons, List.sum_cons]
        refine ⟨by omega, fun b hb => ?_⟩
        rcases List.mem_cons.mp hb with rfl | hb
        · exact ⟨ha.bulk, ha.size⟩
        · exact hargs b hb
  obtain ⟨hsum, hargs⟩ := hfits args read hread hgood
  refine ⟨hlen ▸ helements, fun a ha => (hargs a ha).1, ?_, hlen ▸ hcount, fun a ha => (hargs a ha).2⟩
  have hline : ((p.buffer.drop 1).take (eol - 1)).length = eol - 1 := by
    rw [List.length_take, List.length_drop]
    omega
  rw [hline] at hprint
  rw [length_encodeCommand, hlen]
  omega

end VeloxDb.Resp
