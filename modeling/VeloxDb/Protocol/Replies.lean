import VeloxDb.Protocol.Stream

/-!
# Replies that are one value

A client reads the replies to its pipelined commands off one stream, so a reply has to be exactly
one RESP value: its parser must take all of it and nothing of what follows (`OneValue`). Bulk
strings and arrays are framed by their lengths and may hold any bytes. Simple strings and errors are
framed by the first CRLF, so their text must not contain one (`oneValue_error_iff`).
-/

namespace VeloxDb.Resp

open Decimal Util

/-- The limits of a reader leave room for a text of this length. -/
structure Roomy (o : ParserOptions) (length : ℕ) : Prop where
  request : length ≤ o.maxRequestBytes
  elements : length ≤ o.maxArrayElements
  bulk : length ≤ o.maxBulkBytes

/-- The text is exactly one RESP value to every reader with room for it, whatever follows it. -/
def OneValue (s : Bytes) : Prop :=
  ∃ v, ∀ o, Roomy o s.length → ∀ rest, parseAt o (s ++ rest) (kMaxDepth + 1) 0 = .ok v s.length

/-- What follows does not matter once the text alone is a value. -/
theorem oneValue_of_alone {s : Bytes} {v : Value}
    (h : ∀ o, Roomy o s.length → parseAt o s (kMaxDepth + 1) 0 = .ok v s.length) : OneValue s := by
  refine ⟨v, fun o ho rest => ?_⟩
  have halone := h o ho
  rw [parseAt_append ho.request rest _ _ (by simp [halone]), halone]

/-! ## Lines -/

/-- The first CRLF ends the line, if there is none in it. -/
theorem crlfIndex_line {line : Bytes} (h : crlfIndex line = none) (rest : Bytes) :
    crlfIndex (line ++ crlf ++ rest) = some line.length := by
  induction line with
  | nil => rfl
  | cons b t ih =>
    have hne : ∀ u, b = 13 → t = 10 :: u → False := by
      rintro u rfl rfl
      cases h
    rw [crlfIndex.eq_2 _ _ hne, Option.map_eq_none_iff] at h
    -- a CR at the end of the line is followed by the CR of its end
    have hne' : ∀ u, b = 13 → t ++ crlf ++ rest = 10 :: u → False := by
      intro u hb hu
      cases t with
      | nil => cases hu
      | cons c t =>
        rw [List.cons_append, List.cons_append, List.cons.injEq] at hu
        exact hne t hb (by rw [hu.1])
    rw [List.cons_append, List.cons_append, crlfIndex.eq_2 _ _ hne', ih h]
    rfl

/-- What stands before a text cannot complete a CRLF unless it ends in a CR. -/
theorem crlfIndex_append_left {s : Bytes} (h : (13 : UInt8) ∉ s) (t : Bytes) :
    crlfIndex (s ++ t) = (crlfIndex t).map (s.length + ·) := by
  induction s with
  | nil => simp
  | cons b s ih =>
    rw [List.mem_cons, not_or] at h
    rw [List.cons_append, crlfIndex.eq_2 _ _ (by rintro u rfl -; exact h.1 rfl), ih h.2,
      Option.map_map]
    congr 1
    funext i
    simp only [Function.comp_apply, List.length_cons]
    omega

/-- What stands behind a text cannot complete a CRLF unless it has a line feed. -/
theorem crlfIndex_append_right (s : Bytes) {t : Bytes} (h : (10 : UInt8) ∉ t) :
    crlfIndex (s ++ t) = crlfIndex s := by
  induction s with
  | nil =>
    -- without a line feed there is no CRLF
    induction t with
    | nil => rfl
    | cons b t ih =>
      rw [List.mem_cons, not_or] at h
      rw [List.nil_append] at ih ⊢
      rw [crlfIndex.eq_2 _ _ (by rintro u - rfl; exact h.2 (by simp)), ih h.2]
      rfl
  | cons b s ih =>
    by_cases hcrlf : ∃ u, b = 13 ∧ s = 10 :: u
    · obtain ⟨u, rfl, rfl⟩ := hcrlf
      rfl
    · have hne : ∀ u, b = 13 → s = 10 :: u → False := fun u hb hs => hcrlf ⟨u, hb, hs⟩
      have hne' : ∀ u, b = 13 → s ++ t = 10 :: u → False := by
        intro u hb hu
        cases s with
        | nil =>
          rw [List.nil_append] at hu
          exact h (by simp [hu])
        | cons c s =>
          rw [List.cons_append, List.cons.injEq] at hu
          exact hne s hb (by rw [hu.1])
      rw [List.cons_append, crlfIndex.eq_2 _ _ hne', crlfIndex.eq_2 _ _ hne, ih]

/-- Without a line feed there is no CRLF. -/
theorem crlfIndex_eq_none {s : Bytes} (h : (10 : UInt8) ∉ s) : crlfIndex s = none :=
  crlfIndex_append_right [] h

/-- The `+`, `-` and `:` values end with the first CRLF. -/
theorem parseAt_of_crlfIndex {o : ParserOptions} {t : Bytes} {ch : UInt8} {i : ℕ} (room : ℕ)
    (h : crlfIndex t = some i) :
    (ch = 43 → parseAt o (ch :: t) (room + 1) 0 = .ok (.simpleString (t.take i)) (i + 3)) ∧
    (ch = 45 → parseAt o (ch :: t) (room + 1) 0 = .ok (.error (t.take i)) (i + 3)) ∧
    ∀ number, parseNumberLine (t.take i) = some number → ch = 58 →
      parseAt o (ch :: t) (room + 1) 0 = .ok (.integer number) (i + 3) := by
  have heol : findCrlf (ch :: t) (0 + 1) = some (i + 1) := by
    rw [findCrlf, Nat.zero_add, List.drop_succ_cons, List.drop_zero, h]
    exact congrArg some (Nat.add_comm _ _)
  have htake : ((ch :: t).drop (0 + 1)).take (i + 1 - (0 + 1)) = t.take i := by simp
  refine ⟨?_, ?_, ?_⟩
  · rintro rfl
    simp only [parseAt, List.getElem?_cons_zero, heol, htake]
    rfl
  · rintro rfl
    simp only [parseAt, List.getElem?_cons_zero, heol, htake]
    rfl
  · rintro number hnumber rfl
    simp only [parseAt, List.getElem?_cons_zero, heol, htake, hnumber]
    rfl

/-- The bytes before the CRLF are the line. -/
theorem take_line (line rest : Bytes) : (line ++ crlf ++ rest).take line.length = line := by
  rw [List.append_assoc, List.take_left]

/-- A line is three bytes longer than its text. -/
theorem length_line (ch : UInt8) (line : Bytes) : (ch :: (line ++ crlf)).length = line.length + 3 := by
  simp [crlf]

/-- A status is one value if its text has no CRLF. -/
theorem oneValue_simple {text : Bytes} (h : crlfIndex text = none) : OneValue (simple text) := by
  refine ⟨.simpleString text, fun o _ rest => ?_⟩
  have hparse := (parseAt_of_crlfIndex (o := o) kMaxDepth (crlfIndex_line h rest)).1 rfl
  rw [take_line] at hparse
  rw [simple, length_line, List.cons_append]
  exact hparse

/-- A number of 64 bits is one value. -/
theorem oneValue_integer {i : ℤ} (h : InI64 i) : OneValue (integer i) := by
  have hline : (10 : UInt8) ∉ printInt i := fun hmem =>
    absurd (printInt_not_isSpace i 10 hmem) (by decide)
  have hnumber : parseNumberLine (printInt i) = some i := by
    rw [parseNumberLine, if_neg (printInt_ne_nil i), wholeI64_printInt h]
  refine ⟨.integer i, fun o _ rest => ?_⟩
  rw [integer, length_line, List.cons_append]
  refine (parseAt_of_crlfIndex kMaxDepth (crlfIndex_line (crlfIndex_eq_none hline) rest)).2.2 i ?_ rfl
  rw [take_line, hnumber]

/-- An error is a line behind a minus sign. -/
theorem error_eq (text : Bytes) : error text = 45 :: (ascii "ERR " ++ text ++ crlf) := rfl

/-- **Errors.** The text of an error reply is framed by the first CRLF, so the reply is one value
exactly if the text has none. -/
theorem oneValue_error_iff {text : Bytes} : OneValue (error text) ↔ crlfIndex text = none := by
  have hline : crlfIndex (ascii "ERR " ++ text) = (crlfIndex text).map (4 + ·) :=
    crlfIndex_append_left (by decide) text
  rw [error_eq]
  constructor
  · rintro ⟨v, hv⟩
    by_contra hsome
    obtain ⟨i, hi⟩ := Option.ne_none_iff_exists'.mp hsome
    rw [hi, Option.map_some] at hline
    -- a reader stops at the CRLF inside the text
    have hlt : 4 + i + 2 ≤ (ascii "ERR " ++ text).length := by
      have hfind : findCrlf (ascii "ERR " ++ text) 0 = some (4 + i) := by
        rw [findCrlf, List.drop_zero, hline, Option.map_some, Nat.zero_add]
      exact findCrlf_lt hfind
    have hparse := hv ⟨_, _, _⟩ ⟨le_rfl, le_rfl, le_rfl⟩ []
    rw [List.append_nil, (parseAt_of_crlfIndex kMaxDepth (crlfIndex_append hline crlf)).2.1 rfl,
      InternalResult.ok.injEq, length_line] at hparse
    omega
  · intro hnone
    rw [hnone, Option.map_none] at hline
    refine ⟨.error (ascii "ERR " ++ text), fun o _ rest => ?_⟩
    have hparse := (parseAt_of_crlfIndex (o := o) kMaxDepth (crlfIndex_line hline rest)).2.1 rfl
    rw [take_line] at hparse
    rw [length_line, List.cons_append]
    exact hparse

/-! ## Bulk strings and arrays -/

/-- A bulk string is one value, whatever its bytes are. -/
theorem oneValue_bulk {text : Bytes} (h : text.length ≤ maxSize) : OneValue (bulk text) := by
  refine oneValue_of_alone (v := .bulkString text) fun o ho => ?_
  have hlen := length_bulkStringFragment text
  have hbulk := ho.bulk
  rw [bulk] at hbulk ⊢
  exact parseAt_fragment kMaxDepth (List.append_nil _).symm (by omega)
    (by rw [Nat.zero_add]; exact ho.request) h

/-- The encoding of one element of a reply, and its value. -/
def element : Option Bytes → Bytes
  | some value => bulk value
  | none => nullBulk

/-- The value of an element of an array. -/
def elementValue : Option Bytes → Value
  | some value => .bulkString value
  | none => .nullBulk

/-- An array is its header and its elements. -/
theorem arrayOfBulk_eq (values : List (Option Bytes)) :
    arrayOfBulk values = 42 :: (print values.length ++ crlf ++ values.flatMap element) := by
  have helements : arrayOfBulk values = arrayHeader values.length ++ values.flatMap element := by
    rw [arrayOfBulk]
    congr 2
  simp only [helements, arrayHeader, List.cons_append, List.append_assoc]

/-- A null bulk string is read back. -/
theorem parseAt_nullBulk {o : ParserOptions} {buffer rest : Bytes} {pos : ℕ} (room : ℕ)
    (hd : buffer.drop pos = nullBulk ++ rest) :
    parseAt o buffer (room + 1) pos = .ok .nullBulk nullBulk.length := by
  have hd' : buffer.drop pos = 36 :: (ascii "-1" ++ crlf ++ rest) := by
    rw [hd]
    rfl
  rw [(parseAt_of_line (by decide) hd').1 rfl, parseBulk]
  have hline : parseNumberLine (ascii "-1") = some (-1) := by decide +kernel
  simp only [hline]
  rw [if_neg (by decide), if_pos trivial]
  congr 1
  rw [Nat.add_assoc, Nat.add_sub_cancel_left]
  rfl

/-- An element of an array is read back. -/
theorem parseAt_element {o : ParserOptions} {buffer rest : Bytes} {pos : ℕ} (room : ℕ)
    (value : Option Bytes) (hd : buffer.drop pos = element value ++ rest)
    (hbulk : (element value).length ≤ o.maxBulkBytes)
    (hreq : pos + (element value).length ≤ o.maxRequestBytes)
    (hrep : (element value).length ≤ maxSize) :
    parseAt o buffer (room + 1) pos = .ok (elementValue value) (element value).length := by
  cases value with
  | none => exact parseAt_nullBulk room hd
  | some text =>
    have hlen := length_bulkStringFragment text
    simp only [element, bulk] at hbulk hrep
    exact parseAt_fragment room hd (by omega) hreq (by omega)

/-- The elements of a reply, one after another. -/
theorem parseElements_elements {o : ParserOptions} {buffer rest : Bytes} {room pos : ℕ}
    (values : List (Option Bytes)) (cursor : ℕ) (items : List Value)
    (hd : buffer.drop cursor = values.flatMap element ++ rest)
    (hbulk : (values.flatMap element).length ≤ o.maxBulkBytes)
    (hreq : cursor + (values.flatMap element).length ≤ o.maxRequestBytes)
    (hrep : (values.flatMap element).length ≤ maxSize) :
    parseElements o (parseAt o buffer (room + 1)) pos values.length cursor items
      = .ok (.array (items ++ values.map elementValue))
          (cursor + (values.flatMap element).length - pos) := by
  refine parseElements_texts element elementValue values cursor items hd
    (fun value hvalue _ _ hstart hle => ?_) hreq
  have hlen : (element value).length ≤ (values.flatMap element).length :=
    (List.sublist_flatten_of_mem (List.mem_map_of_mem hvalue)).length_le
  exact parseAt_element room value hstart (by omega) hle (by omega)

/-- There are no more elements than bytes. -/
theorem length_le_length_elements (values : List (Option Bytes)) :
    values.length ≤ (values.flatMap element).length := by
  induction values with
  | nil => rfl
  | cons value values ih =>
    have hpos : 1 ≤ (element value).length := by
      cases value with
      | none => decide
      | some text =>
        simp only [element, bulk, bulkStringFragment, List.length_cons]
        omega
    simp only [List.flatMap_cons, List.length_append, List.length_cons]
    omega

/-- An array of bulk strings is one value. -/
theorem oneValue_arrayOfBulk {values : List (Option Bytes)}
    (h : (arrayOfBulk values).length ≤ maxSize) : OneValue (arrayOfBulk values) := by
  refine oneValue_of_alone (v := .array (values.map elementValue)) fun o ho => ?_
  obtain ⟨hrequest, helements, hbulk⟩ := ho
  have hcount := length_le_length_elements values
  have hlen : (arrayOfBulk values).length
      = (print values.length).length + 3 + (values.flatMap element).length := by
    rw [arrayOfBulk_eq]
    simp only [List.length_cons, List.length_append, crlf, List.length_nil]
    omega
  have hd : (arrayOfBulk values).drop 0
      = 42 :: (print values.length ++ crlf ++ values.flatMap element) := arrayOfBulk_eq values
  have hbody : (arrayOfBulk values).drop (0 + (print values.length).length + 3)
      = values.flatMap element ++ [] := by
    have hsplit : (arrayOfBulk values).drop 0
        = (42 :: (print values.length ++ crlf)) ++ values.flatMap element := by simpa using hd
    rw [List.append_nil, ← drop_add_of_drop_eq hsplit]
    congr 1
    simp [crlf]
  have hparse := @parseElements_elements o (arrayOfBulk values) [] 7 0 values _ [] hbody (by omega)
    (by omega) (by omega)
  rw [(parseAt_of_line (not_mem_print _) hd).2 rfl,
    parseArray_print (by omega) (by omega), show kMaxDepth = 7 + 1 from rfl, hparse]
  congr 1
  omega

/-! ## Reading replies one after another -/

/-- The raw texts of the first values that a reader takes off its buffer. -/
def readValues : ℕ → Parser → List Bytes
  | 0, _ => []
  | n + 1, p =>
    match p.nextValue with
    | (.ok _ raw, p') => raw :: readValues n p'
    | _ => []

/-- A value starts with one of the RESP prefixes. -/
theorem isRespPrefix_of_parseAt {o : ParserOptions} {ch : UInt8} {t : Bytes} {room n : ℕ} {v : Value}
    (h : parseAt o (ch :: t) (room + 1) 0 = .ok v n) : isRespPrefix ch = true := by
  obtain ⟨below, ch', eol, line, -, hch, -, -, hcases⟩ := parseAt_ok_cases h
  rw [List.getElem?_cons_zero, Option.some.injEq] at hch
  subst hch
  rcases hcases with ⟨⟨rfl, -⟩ | ⟨rfl, -⟩ | ⟨rfl, -⟩, -⟩ | ⟨rfl, -⟩ | ⟨rfl, -⟩ <;> rfl

/-- One value at the front of the buffer is taken off it, and nothing else. -/
theorem nextValue_of_oneValue {o : ParserOptions} {s : Bytes} (h : OneValue s)
    (ho : Roomy o s.length) (rest : Bytes) :
    ∃ v, (⟨o, s ++ rest⟩ : Parser).nextValue = (.ok v s, ⟨o, rest⟩) := by
  obtain ⟨v, hv⟩ := h
  have hparse := hv o ho rest
  refine ⟨v, ?_⟩
  have hfront : (⟨o, s ++ rest⟩ : Parser).parseFront = .ok v s.length := by
    cases hs : s ++ rest with
    | nil =>
      rw [hs] at hparse
      cases hparse
    | cons ch t =>
      rw [hs] at hparse
      rw [parseFront_of_resp rfl (isRespPrefix_of_parseAt hparse)]
      exact hparse
  rw [Parser.nextValue, hfront]
  simp only [Parser.discard, List.take_left, List.drop_left]
  rw [if_neg (by have := ho.request; omega)]

/-- **Pipelined replies.** The values that a client reads are the replies, in their order. -/
theorem readValues_replies {o : ParserOptions} (replies : List Bytes) (rest : Bytes)
    (h : ∀ r ∈ replies, OneValue r ∧ Roomy o r.length) :
    readValues replies.length ⟨o, replies.flatten ++ rest⟩ = replies := by
  induction replies with
  | nil => rfl
  | cons r replies ih =>
    obtain ⟨hr, hroom⟩ := h r (by simp)
    obtain ⟨v, hv⟩ := nextValue_of_oneValue hr hroom (replies.flatten ++ rest)
    rw [List.flatten_cons, List.append_assoc, List.length_cons, readValues, hv]
    simp only [ih fun r' hr' => h r' (by simp [hr'])]

end VeloxDb.Resp
