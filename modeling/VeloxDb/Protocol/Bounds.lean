import VeloxDb.Common.Checked
import VeloxDb.Protocol.Grammar
import VeloxDb.Protocol.Stream

/-!
# The parser stays within its buffer

`parse_at` and `parse_inline` once more, with every access to the buffer and every addition or
subtraction of a `size_t` made visible, in the order of the source. A length that the client sends
may be as large as `2 ^ 63 - 1` and the limits as large as `2 ^ 64 - 1`, so each step is safe only by
the tests in front of it. The recursion counts the calls that may still be stacked, and the call that
would be one too many is a fault.

On every buffer shorter than `2 ^ 62` bytes these programs return, and what they return is what
`parseAt` and `parseInline` return.
-/

namespace VeloxDb.Resp

open Decimal Util Checked

/-! ## The source with its faults -/

/-- The `$` branch of `parse_at`; the tests behind `||` are made only where the first one fails. -/
def checkedBulk (o : ParserOptions) (buffer : Bytes) (pos afterLine : ℕ) (line : Bytes) :
    Checked InternalResult :=
  match parseNumberLine line with
  | none => return .error (ascii "invalid bulk string length")
  | some length =>
    if length < -1 then return .error (ascii "invalid bulk string length")
    else if length = -1 then do
      return .ok .nullBulk (← sub afterLine pos)
    else
      let len := length.toNat
      if len > o.maxBulkBytes ∨ len > uint64Max then
        return .error (ascii "bulk string exceeded maximum size")
      else if afterLine > o.maxRequestBytes then
        return .error (ascii "bulk string exceeded maximum request size")
      else do
        if len > (← sub o.maxRequestBytes afterLine) then
          return .error (ascii "bulk string exceeded maximum request size")
        let stop ← add afterLine len
        if buffer.length < (← add stop 2) then return .needMore
        if (← load buffer stop) ≠ 13 then return .error (ascii "malformed bulk string CRLF")
        if (← load buffer (← add stop 1)) ≠ 10 then
          return .error (ascii "malformed bulk string CRLF")
        let text ← slice buffer afterLine len
        return .ok (.bulkString text) (← sub (← add stop 2) pos)

/-- The element loop of the `*` branch, with its counter `i`. -/
def checkedElements (o : ParserOptions) (parse : ℕ → Checked InternalResult) (pos : ℕ) :
    ℕ → ℕ → ℕ → List Value → Checked InternalResult
  | 0, _, cursor, items => do
    return .ok (.array items) (← sub cursor pos)
  | count + 1, i, cursor, items => do
    match ← parse cursor with
    | .ok value consumed =>
      let cursor ← add cursor consumed
      if (← sub cursor pos) > o.maxRequestBytes then
        return .error (ascii "request exceeded maximum size")
      let i ← add i 1
      checkedElements o parse pos count i cursor (items ++ [value])
    | .needMore => return .needMore
    | .error message => return .error message

/-- The `*` branch of `parse_at`. -/
def checkedArray (o : ParserOptions) (parse : ℕ → Checked InternalResult) (pos afterLine : ℕ)
    (line : Bytes) : Checked InternalResult :=
  match parseNumberLine line with
  | none => return .error (ascii "invalid array length")
  | some count =>
    if count < -1 then return .error (ascii "invalid array length")
    else if count = -1 then do
      return .ok .nullArray (← sub afterLine pos)
    else if count.toNat > o.maxArrayElements ∨ count.toNat > uint64Max then
      return .error (ascii "array exceeded maximum element count")
    else checkedElements o parse pos count.toNat 0 afterLine []

/-- `parse_at` at a depth, with the number of calls that may be stacked from here on. -/
def checkedAt (o : ParserOptions) (buffer : Bytes) : ℕ → ℕ → ℕ → Checked InternalResult
  | 0, _, _ => .error .tooDeep
  | calls + 1, pos, depth => do
    if depth > kMaxDepth then return .error (ascii "RESP nesting depth exceeded")
    if pos ≥ buffer.length then return .needMore
    let ch ← load buffer pos
    let lineStart ← add pos 1
    match findCrlf buffer lineStart with
    | none =>
      if (← sub buffer.length pos) > o.maxRequestBytes then
        return .error (ascii "line exceeded maximum request size")
      return .needMore
    | some eol =>
      let line ← slice buffer lineStart (← sub eol lineStart)
      let afterLine ← add eol 2
      if ch = 43 then return .ok (.simpleString line) (← sub afterLine pos)
      else if ch = 45 then return .ok (.error line) (← sub afterLine pos)
      else if ch = 58 then
        match parseNumberLine line with
        | none => return .error (ascii "invalid integer")
        | some number => return .ok (.integer number) (← sub afterLine pos)
      else if ch = 36 then checkedBulk o buffer pos afterLine line
      else if ch = 42 then
        let parse := fun cursor => do checkedAt o buffer calls cursor (← add depth 1)
        checkedArray o parse pos afterLine line
      else return .error (ascii "unknown RESP type")

/-- `parse_inline` with every access and every sum checked. -/
def checkedInline (o : ParserOptions) (buffer : Bytes) (pos : ℕ) : Checked InternalResult := do
  match findCrlf buffer pos with
  | none =>
    if (← sub buffer.length pos) > o.maxRequestBytes then
      return .error (ascii "inline command exceeded maximum size")
    return .needMore
  | some eol =>
    let words := splitWords (← slice buffer pos (← sub eol pos))
    if words.any fun word => word.length > o.maxBulkBytes then
      return .error (ascii "inline argument exceeded maximum size")
    return .ok (.array (words.map .bulkString)) (← sub (← add eol 2) pos)

/-! ## No fault is met -/

section Faults

variable {o : ParserOptions} {buffer : Bytes} (hbuffer : buffer.length < 2 ^ 62)

include hbuffer

/-- A bulk string is read without a fault. -/
theorem checkedBulk_eq {line : Bytes} {pos afterLine : ℕ} (hpos : pos ≤ afterLine)
    (hafter : afterLine ≤ buffer.length) :
    checkedBulk o buffer pos afterLine line = .ok (parseBulk o buffer pos afterLine line) := by
  rw [checkedBulk, parseBulk]
  cases hline : parseNumberLine line with
  | none => rfl
  | some length =>
    have hmax : length ≤ int64Max := (parseNumberLine_iff.mp hline).2.2
    simp only [ite_or]
    refine ite_eq_ok (fun _ => rfl) fun hneg => ite_eq_ok (fun _ => ?_) fun hnull =>
      ite_eq_ok (fun _ => rfl) fun _ => ite_eq_ok (fun _ => rfl) fun _ =>
      ite_eq_ok (fun _ => rfl) fun hreq => ?_
    · rw [sub_eq hpos]
      rfl
    rw [sub_eq (by omega), ok_bind]
    refine ite_eq_ok (fun _ => rfl) fun hlen => ?_
    simp only [int64Max] at hmax
    rw [add_eq (by omega), ok_bind, add_eq (by omega), ok_bind]
    refine ite_eq_ok (fun _ => rfl) fun hmore => ?_
    -- both bytes of the CRLF are there
    obtain ⟨cr, hcr⟩ : ∃ cr, buffer[afterLine + length.toNat]? = some cr :=
      ⟨_, List.getElem?_eq_getElem (by omega)⟩
    obtain ⟨lf, hlf⟩ : ∃ lf, buffer[afterLine + length.toNat + 1]? = some lf :=
      ⟨_, List.getElem?_eq_getElem (by omega)⟩
    rw [load_eq hcr, ok_bind, hcr, add_eq (by omega), ok_bind, load_eq hlf, ok_bind, hlf]
    simp only [ne_eq, Option.some.injEq]
    refine ite_eq_ok (fun _ => rfl) fun _ => ite_eq_ok (fun _ => rfl) fun _ => ?_
    rw [slice_eq (by omega), ok_bind, ok_bind, sub_eq (by omega), ok_bind]
    rfl

/-- Elements are read without a fault, if each of them is. -/
theorem checkedElements_eq {parse : ℕ → InternalResult} {check : ℕ → Checked InternalResult}
    (hcheck : ∀ cursor ≤ buffer.length, check cursor = .ok (parse cursor))
    (hparse : ∀ cursor v n, cursor ≤ buffer.length → parse cursor = .ok v n →
      cursor + n ≤ buffer.length)
    {pos : ℕ} (count i : ℕ) {cursor : ℕ} (items : List Value) (hcount : i + count ≤ uint64Max)
    (hpos : pos ≤ cursor) (hcursor : cursor ≤ buffer.length) :
    checkedElements o check pos count i cursor items
      = .ok (parseElements o parse pos count cursor items) := by
  induction count generalizing i cursor items with
  | zero =>
    rw [checkedElements, parseElements, sub_eq hpos]
    rfl
  | succ count ih =>
    rw [checkedElements, parseElements, hcheck cursor hcursor, ok_bind]
    cases hvalue : parse cursor with
    | needMore => rfl
    | error message => rfl
    | ok value consumed =>
      have hnext := hparse cursor value consumed hcursor hvalue
      simp only [uint64Max] at hcount ih
      simp only
      rw [add_eq (by omega), ok_bind, sub_eq (by omega), ok_bind]
      refine ite_eq_ok (fun _ => rfl) fun _ => ?_
      rw [add_eq (by omega), ok_bind]
      exact ih (i + 1) (items ++ [value]) (by omega) (by omega) hnext

/-- An array is read without a fault, if its elements are. -/
theorem checkedArray_eq {parse : ℕ → InternalResult} {check : ℕ → Checked InternalResult}
    (hcheck : ∀ cursor ≤ buffer.length, check cursor = .ok (parse cursor))
    (hparse : ∀ cursor v n, cursor ≤ buffer.length → parse cursor = .ok v n →
      cursor + n ≤ buffer.length)
    {line : Bytes} {pos afterLine : ℕ} (hpos : pos ≤ afterLine) (hafter : afterLine ≤ buffer.length) :
    checkedArray o check pos afterLine line = .ok (parseArray o parse pos afterLine line) := by
  rw [checkedArray, parseArray]
  cases hline : parseNumberLine line with
  | none => rfl
  | some count =>
    refine ite_eq_ok (fun _ => rfl) fun _ => ite_eq_ok (fun _ => ?_) fun _ =>
      ite_eq_ok (fun _ => rfl) fun hcount => ?_
    · rw [sub_eq hpos]
      rfl
    · exact checkedElements_eq hbuffer hcheck hparse _ 0 [] (by omega) hpos hafter

/-- Below a depth there is as much room as calls may be stacked, and `parse_at` makes no more. -/
theorem checkedAt_eq (room : ℕ) {pos depth : ℕ} (hdepth : depth + room = kMaxDepth + 1)
    (hpos : pos ≤ buffer.length) :
    checkedAt o buffer (room + 1) pos depth = .ok (parseAt o buffer room pos) := by
  induction room generalizing pos depth with
  | zero =>
    rw [checkedAt, if_pos (by omega)]
    rfl
  | succ room ih =>
    rw [checkedAt, if_neg (by omega), parseAt]
    by_cases hend : pos ≥ buffer.length
    · rw [if_pos hend, List.getElem?_eq_none hend]
      rfl
    obtain ⟨ch, hch⟩ : ∃ ch, buffer[pos]? = some ch := ⟨_, List.getElem?_eq_getElem (by omega)⟩
    rw [if_neg hend, load_eq hch, ok_bind, hch, add_eq (by omega), ok_bind]
    cases heol : findCrlf buffer (pos + 1) with
    | none =>
      simp only
      rw [sub_eq hpos, ok_bind]
      exact ite_eq_ok (fun _ => rfl) fun _ => rfl
    | some eol =>
      have hle := le_of_findCrlf heol
      have hlt := findCrlf_lt heol
      simp only
      rw [sub_eq hle, ok_bind, slice_eq (by omega), ok_bind, add_eq (by omega), ok_bind,
        sub_eq (by omega)]
      refine ite_eq_ok (fun _ => rfl) fun _ => ite_eq_ok (fun _ => rfl) fun _ =>
        ite_eq_ok (fun _ => ?_) fun _ => ite_eq_ok (fun _ => ?_) fun _ =>
        ite_eq_ok (fun _ => ?_) fun _ => rfl
      · cases parseNumberLine ((buffer.drop (pos + 1)).take (eol - (pos + 1))) <;> rfl
      · exact checkedBulk_eq hbuffer (by omega) hlt
      · -- the elements are one level deeper, with one call fewer to stack
        refine checkedArray_eq hbuffer (fun cursor hcursor => ?_)
          consumed_le_parseAt (by omega) hlt
        rw [kMaxDepth] at hdepth
        rw [add_eq (by omega), ok_bind]
        exact ih (by rw [kMaxDepth]; omega) hcursor

/-- A line of words is read without a fault. -/
theorem checkedInline_eq {pos : ℕ} (hpos : pos ≤ buffer.length) :
    checkedInline o buffer pos = .ok (parseInline o buffer pos) := by
  rw [checkedInline, parseInline]
  cases heol : findCrlf buffer pos with
  | none =>
    simp only
    rw [sub_eq hpos, ok_bind]
    exact ite_eq_ok (fun _ => rfl) fun _ => rfl
  | some eol =>
    have hle := le_of_findCrlf heol
    have hlt := findCrlf_lt heol
    simp only
    rw [sub_eq hle, ok_bind, slice_eq (by omega), ok_bind]
    refine ite_eq_ok (fun _ => rfl) fun _ => ?_
    rw [add_eq (by omega), ok_bind, sub_eq (by omega), ok_bind]
    rfl

end Faults

/-- **The parser stays within its buffer.** With ten calls at most on the stack, `parse_at` at depth
zero meets no fault, nor does `parse_inline`; and a value that they return takes at least two bytes
and no more than there are. The limits may be any numbers. -/
theorem parser_meets_no_fault (o : ParserOptions) {buffer : Bytes} {pos : ℕ}
    (hbuffer : buffer.length < 2 ^ 62) (hpos : pos ≤ buffer.length) :
    checkedAt o buffer 10 pos 0 = .ok (parseAt o buffer (kMaxDepth + 1) pos) ∧
      checkedInline o buffer pos = .ok (parseInline o buffer pos) ∧
      ∀ v n, (checkedAt o buffer 10 pos 0 = .ok (.ok v n) ∨
        checkedInline o buffer pos = .ok (.ok v n)) → 2 ≤ n ∧ n ≤ buffer.length - pos := by
  have hat : checkedAt o buffer 10 pos 0 = .ok (parseAt o buffer (kMaxDepth + 1) pos) :=
    checkedAt_eq hbuffer (kMaxDepth + 1) (Nat.zero_add _) hpos
  have hinline : checkedInline o buffer pos = .ok (parseInline o buffer pos) :=
    checkedInline_eq hbuffer hpos
  refine ⟨hat, hinline, ?_⟩
  rintro v n (h | h)
  · rw [hat, Except.ok.injEq] at h
    have hle := consumed_le_parseAt pos v n hpos h
    exact ⟨two_le_consumed_parseAt h, by omega⟩
  · rw [hinline, Except.ok.injEq] at h
    have hle := consumed_le_parseInline h
    exact ⟨two_le_consumed_parseInline h, by omega⟩

/-- The largest length that a client can send, with the largest limits. -/
def hugeBulk : ParserOptions × Bytes :=
  (⟨uint64Max, uint64Max, uint64Max⟩, ascii "$9223372036854775807\r\n")

theorem hugeBulk_meets_no_fault :
    checkedAt hugeBulk.1 hugeBulk.2 10 0 0 = .ok (parseAt hugeBulk.1 hugeBulk.2 (kMaxDepth + 1) 0) ∧
      checkedInline hugeBulk.1 hugeBulk.2 0 = .ok (parseInline hugeBulk.1 hugeBulk.2 0) ∧
      ∀ v n, (checkedAt hugeBulk.1 hugeBulk.2 10 0 0 = .ok (.ok v n) ∨
        checkedInline hugeBulk.1 hugeBulk.2 0 = .ok (.ok v n)) →
        2 ≤ n ∧ n ≤ hugeBulk.2.length - 0 :=
  parser_meets_no_fault hugeBulk.1 (by decide) (by decide)

end VeloxDb.Resp
