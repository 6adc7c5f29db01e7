import VeloxDb.Protocol.Acceptance

/-!
# The grammar of RESP values

A value is written as a byte for its type, a line, CRLF and what follows the line: nothing, the bytes
of a string, or the elements of an array. `Derives o levels v bytes` says that `bytes` is such a text
of the value `v`, with the lengths and counts within the limits `o` and with at most `levels` levels
of elements below the value.

The parser finds the end of the line by a search, and counts positions from the front of the buffer.
So the bridge between the two is what is left of the buffer at a position: `parse_at` returns a value
there if and only if what is left begins with a text of the value (`parseAt_iff`).
-/

namespace VeloxDb.Resp

open Decimal Util

/-- A decimal numeral, which may have leading zeros, and the number that it denotes. -/
inductive Numeral : Bytes → ℤ → Prop
  | nonneg {digits : Bytes} (hne : digits ≠ []) (hdig : ∀ b ∈ digits, isDigit b = true) :
      Numeral digits (read digits)
  | neg {digits : Bytes} (hne : digits ≠ []) (hdig : ∀ b ∈ digits, isDigit b = true) :
      Numeral (45 :: digits) (-(read digits : ℤ))

/-- A numeral of an `int64_t`. -/
def Int64Line (line : Bytes) (i : ℤ) : Prop := Numeral line i ∧ InI64 i

/-- What follows a line: for the byte `ch` in front of `line`, the value and the rest of its text.
The elements of an array are texts of values in their turn. -/
inductive Production (o : ParserOptions) (element : Value → Bytes → Prop) :
    UInt8 → Bytes → Value → Bytes → Prop
  -- `+ - : $ *` are 43, 45, 58, 36 and 42
  | simpleString {line : Bytes} : Production o element 43 line (.simpleString line) []
  | error {line : Bytes} : Production o element 45 line (.error line) []
  | integer {line : Bytes} {i : ℤ} (hline : Int64Line line i) :
      Production o element 58 line (.integer i) []
  | nullBulk {line : Bytes} (hline : Int64Line line (-1)) : Production o element 36 line .nullBulk []
  | bulkString {line text : Bytes} (hline : Int64Line line text.length)
      (hmax : text.length ≤ o.maxBulkBytes) :
      Production o element 36 line (.bulkString text) (text ++ crlf)
  | nullArray {line : Bytes} (hline : Int64Line line (-1)) :
      Production o element 42 line .nullArray []
  | array {line : Bytes} {items : List Value} {parts : List Bytes}
      (hline : Int64Line line items.length) (hmax : items.length ≤ o.maxArrayElements)
      (hparts : List.Forall₂ element items parts) :
      Production o element 42 line (.array items) parts.flatten

/-- A text of a value: a byte, a line without CRLF in it, CRLF and what follows the line. -/
def Text (o : ParserOptions) (element : Value → Bytes → Prop) (v : Value) (bytes : Bytes) : Prop :=
  ∃ ch line more, bytes = ch :: (line ++ crlf ++ more) ∧ ¬ crlf <:+: line ∧
    Production o element ch line v more

/-- The texts of a value that has at most `levels` levels of elements below it. -/
def Derives (o : ParserOptions) : ℕ → Value → Bytes → Prop
  | 0 => Text o fun _ _ => False
  | levels + 1 => Text o (Derives o levels)

/-! ## Lines -/

/-- The first CRLF ends a line without one. -/
theorem crlfIndex_eq_some {s : Bytes} {i : ℕ} (h : crlfIndex s = some i) :
    ∃ line rest, s = line ++ crlf ++ rest ∧ line.length = i ∧ ¬ crlf <:+: line := by
  fun_induction crlfIndex s generalizing i with
  | case1 t =>
    cases h
    exact ⟨[], t, rfl, rfl, by simp [crlf]⟩
  | case2 b t hb ih =>
    obtain ⟨j, hj, rfl⟩ := Option.map_eq_some_iff.mp h
    obtain ⟨line, rest, rfl, rfl, hline⟩ := ih hj
    refine ⟨b :: line, rest, rfl, rfl, fun hinfix => ?_⟩
    rcases List.infix_cons_iff.mp hinfix with ⟨u, hu⟩ | hinfix
    · obtain ⟨rfl, rfl⟩ := List.cons.inj hu
      exact hb (u ++ crlf ++ rest) rfl rfl
    · exact hline hinfix
  | case3 => cases h

/-! ## Numbers -/

/-- What is parsed is a numeral of 64 bits. -/
theorem wholeI64_iff {s : Bytes} {i : ℤ} : wholeI64 s = some i ↔ Int64Line s i := by
  constructor
  · intro h
    refine ⟨?_, inI64_of_wholeI64 h⟩
    obtain ⟨digits, hne, hdig, ⟨rfl, rfl, -⟩ | ⟨rfl, rfl, -⟩⟩ := wholeI64_cases h
    · exact .neg hne hdig
    · exact .nonneg hne hdig
  · rintro ⟨hnum, hmin, hmax⟩
    have hspan : ∀ {digits : Bytes}, (∀ b ∈ digits, isDigit b = true) →
        digits.span isDigit = (digits, []) := by
      intro digits hdig
      rw [List.span_eq_takeWhile_dropWhile, List.takeWhile_eq_self_iff.mpr hdig,
        List.dropWhile_eq_nil_iff.mpr hdig]
    cases hnum with
    | neg hne hdig =>
      simp only [wholeI64, fromCharsI64, hspan hdig, hne, false_or]
      rw [if_neg (by omega)]
    | nonneg hne hdig =>
      have hfrom : fromCharsI64 s = some ((Decimal.read s : ℤ), []) := by
        rw [fromCharsI64.eq_2]
        · simp only [hspan hdig, hne, false_or]
          rw [if_neg (by omega)]
        · rintro t rfl
          have hminus := hdig 45 (by simp)
          cases hminus
      rw [wholeI64, hfrom]

/-- A line is parsed exactly if it is a numeral of 64 bits. -/
theorem parseNumberLine_iff {line : Bytes} {i : ℤ} :
    parseNumberLine line = some i ↔ Int64Line line i := by
  rw [parseNumberLine]
  split_ifs with hline
  · subst hline
    refine ⟨fun h => (by cases h), ?_⟩
    rintro ⟨⟨hne, -⟩, -⟩
    exact absurd rfl hne
  · exact wholeI64_iff

/-! ## What is left of the buffer -/

/-- The bytes begin with a text of the value, `n` bytes long. -/
def Begins (text : Value → Bytes → Prop) (s : Bytes) (v : Value) (n : ℕ) : Prop :=
  ∃ bytes rest, s = bytes ++ rest ∧ bytes.length = n ∧ text v bytes

/-- A text at the front is that of the first bytes. -/
theorem begins_iff_take {text : Value → Bytes → Prop} {s : Bytes} {v : Value} {n : ℕ} :
    Begins text s v n ↔ n ≤ s.length ∧ text v (s.take n) := by
  constructor
  · rintro ⟨bytes, rest, rfl, rfl, htext⟩
    exact ⟨by simp, by rwa [List.take_left]⟩
  · rintro ⟨hn, htext⟩
    exact ⟨s.take n, s.drop n, (List.take_append_drop n s).symm, by simp [hn], htext⟩

section Branches

variable {o : ParserOptions} {buffer line : Bytes} {pos afterLine : ℕ}

/-- The payload of a bulk string and its CRLF, from the checks that `parse_at` makes. -/
theorem drop_eq_payload {len : ℕ}
    (hcr : buffer[afterLine + len]? = some 13) (hlf : buffer[afterLine + len + 1]? = some 10) :
    buffer.drop afterLine
      = (buffer.drop afterLine).take len ++ crlf ++ buffer.drop (afterLine + len + 2) := by
  have hstop : buffer.drop (afterLine + len) = 13 :: buffer.drop (afterLine + len + 1) := by
    obtain ⟨h, hget⟩ := List.getElem?_eq_some_iff.mp hcr
    rw [List.drop_eq_getElem_cons h, hget]
  have hlast : buffer.drop (afterLine + len + 1) = 10 :: buffer.drop (afterLine + len + 2) := by
    obtain ⟨h, hget⟩ := List.getElem?_eq_some_iff.mp hlf
    rw [List.drop_eq_getElem_cons h, hget]
  calc buffer.drop afterLine
      = (buffer.drop afterLine).take len ++ (buffer.drop afterLine).drop len :=
        (List.take_append_drop len _).symm
    _ = (buffer.drop afterLine).take len ++ crlf ++ buffer.drop (afterLine + len + 2) := by
        rw [List.drop_drop, hstop, hlast]
        simp [crlf]

/-- The `$` branch reads what the grammar has behind the length line. -/
theorem parseBulk_iff {element : Value → Bytes → Prop} (hmax : buffer.length ≤ o.maxRequestBytes)
    (hafter : afterLine ≤ buffer.length) (hpos : pos ≤ afterLine) {v : Value} {n : ℕ} :
    parseBulk o buffer pos afterLine line = .ok v n ↔
      ∃ more rest, buffer.drop afterLine = more ++ rest ∧ n = afterLine - pos + more.length ∧
        Production o element 36 line v more := by
  constructor
  · intro h
    rcases parseBulk_ok_cases h with ⟨hnumber, rfl, rfl⟩ | ⟨len, hnumber, hbulk, hmore, hcr, hlf, rfl, rfl⟩
    · exact ⟨[], buffer.drop afterLine, rfl, rfl, .nullBulk (parseNumberLine_iff.mp hnumber)⟩
    · have hline := parseNumberLine_iff.mp hnumber
      have hlength : ((buffer.drop afterLine).take len).length = len := by
        rw [List.length_take, List.length_drop]
        omega
      refine ⟨(buffer.drop afterLine).take len ++ crlf, buffer.drop (afterLine + len + 2),
        drop_eq_payload hcr hlf, ?_, .bulkString ?_ ?_⟩
      · rw [List.length_append, hlength, crlf, List.length_cons, List.length_cons, List.length_nil]
        omega
      · rwa [hlength]
      · rwa [hlength]
  · rintro ⟨more, rest, hdrop, rfl, hproduction⟩
    cases hproduction with
    | nullBulk hline =>
      rw [parseBulk, parseNumberLine_iff.mpr hline]
      rfl
    | @bulkString _ text hline hbulk =>
      have hsize : text.length ≤ maxSize := by
        have h := hline.2.2
        simp only [int64Max] at h
        rw [maxSize]
        omega
      have hlen : afterLine + text.length + 2 ≤ buffer.length := by
        have h := congrArg List.length hdrop
        simp only [List.length_drop, List.length_append, crlf, List.length_cons,
          List.length_nil] at h
        omega
      rw [parseBulk_complete (parseNumberLine_iff.mpr hline) hdrop hpos hbulk (by omega) hsize]
      simp [crlf, Nat.add_assoc]

variable {parse : ℕ → InternalResult} {element : Value → Bytes → Prop}

/-- The element loop reads as many values as it has to, one behind the other. -/
theorem parseElements_iff
    (hparse : ∀ cursor v n, parse cursor = .ok v n ↔ Begins element (buffer.drop cursor) v n)
    (hmax : buffer.length ≤ o.maxRequestBytes) (count : ℕ) {cursor : ℕ}
    (hcursor : cursor ≤ buffer.length) (items : List Value) {v : Value} {n : ℕ} :
    parseElements o parse pos count cursor items = .ok v n ↔
      ∃ more parts rest, more.length = count ∧ List.Forall₂ element more parts ∧
        buffer.drop cursor = parts.flatten ++ rest ∧ v = .array (items ++ more) ∧
        n = cursor + parts.flatten.length - pos := by
  -- by induction on the elements that are still to come
  induction count generalizing cursor items with
  | zero =>
    rw [parseElements, InternalResult.ok.injEq]
    constructor
    · rintro ⟨rfl, rfl⟩
      exact ⟨[], [], buffer.drop cursor, rfl, .nil, rfl, by simp, rfl⟩
    · rintro ⟨more, parts, rest, hlen, hparts, -, rfl, rfl⟩
      obtain rfl := List.length_eq_zero_iff.mp hlen
      cases hparts
      exact ⟨by simp, rfl⟩
  | succ count ih =>
    rw [parseElements_succ_iff]
    have hnext : ∀ {bytes rest : Bytes}, buffer.drop cursor = bytes ++ rest →
        cursor + bytes.length ≤ buffer.length := by
      intro bytes rest hdrop
      have hlen := congrArg List.length hdrop
      rw [List.length_drop, List.length_append] at hlen
      omega
    constructor
    · rintro ⟨value, consumed, hvalue, -, hloop⟩
      obtain ⟨bytes, rest, hdrop, rfl, helement⟩ := (hparse _ _ _).mp hvalue
      rw [ih (hnext hdrop), drop_add_of_drop_eq hdrop] at hloop
      obtain ⟨more, parts, rest', rfl, hparts, rfl, rfl, rfl⟩ := hloop
      refine ⟨value :: more, bytes :: parts, rest', rfl, .cons helement hparts, ?_, ?_, ?_⟩
      · rw [hdrop, List.flatten_cons, List.append_assoc]
      · rw [List.append_assoc, List.singleton_append]
      · rw [List.flatten_cons, List.length_append, Nat.add_assoc]
    · rintro ⟨more, parts, rest, hlen, hparts, hdrop, rfl, rfl⟩
      cases hparts with
      | nil => cases hlen
      | @cons value bytes more parts helement hparts =>
        rw [List.flatten_cons, List.append_assoc] at hdrop
        have hle := hnext hdrop
        refine ⟨value, bytes.length, (hparse _ _ _).mpr ⟨bytes, _, hdrop, rfl, helement⟩, by omega, ?_⟩
        rw [ih hle]
        refine ⟨more, parts, rest, Nat.succ.inj hlen, hparts, drop_add_of_drop_eq hdrop, ?_, ?_⟩
        · rw [List.append_assoc, List.singleton_append]
        · rw [List.flatten_cons, List.length_append, Nat.add_assoc]

/-- The `*` branch reads what the grammar has behind the count line. -/
theorem parseArray_iff
    (hparse : ∀ cursor v n, parse cursor = .ok v n ↔ Begins element (buffer.drop cursor) v n)
    (hmax : buffer.length ≤ o.maxRequestBytes) (hafter : afterLine ≤ buffer.length)
    (hpos : pos ≤ afterLine) {v : Value} {n : ℕ} :
    parseArray o parse pos afterLine line = .ok v n ↔
      ∃ more rest, buffer.drop afterLine = more ++ rest ∧ n = afterLine - pos + more.length ∧
        Production o element 42 line v more := by
  constructor
  · intro h
    rcases parseArray_ok_cases h with ⟨hnumber, rfl, rfl⟩ | ⟨count, hnumber, hcount, helements⟩
    · exact ⟨[], buffer.drop afterLine, rfl, rfl, .nullArray (parseNumberLine_iff.mp hnumber)⟩
    · obtain ⟨items, parts, rest, rfl, hparts, hdrop, rfl, rfl⟩ :=
        (parseElements_iff hparse hmax _ hafter []).mp helements
      rw [List.nil_append]
      exact ⟨parts.flatten, rest, hdrop, by omega,
        .array (parseNumberLine_iff.mp hnumber) hcount hparts⟩
  · rintro ⟨more, rest, hdrop, rfl, hproduction⟩
    cases hproduction with
    | nullArray hline =>
      rw [parseArray, parseNumberLine_iff.mpr hline]
      rfl
    | @array _ items parts hline hcount hparts =>
      have hmaxI64 := hline.2.2
      simp only [int64Max] at hmaxI64
      rw [parseArray, parseNumberLine_iff.mpr hline]
      dsimp only
      rw [if_neg (by omega), if_neg (by omega), if_neg (by rw [uint64Max]; omega),
        Int.toNat_natCast, parseElements_iff hparse hmax _ hafter []]
      exact ⟨items, parts, rest, rfl, hparts, hdrop, rfl, by omega⟩

end Branches

/-! ## Values -/

/-- What is left behind the line of a text. -/
theorem drop_of_line {buffer line rest : Bytes} {ch : UInt8} {pos : ℕ}
    (hdrop : buffer.drop pos = ch :: (line ++ crlf ++ rest)) :
    buffer.drop (pos + line.length + 3) = rest ∧ pos + line.length + 3 ≤ buffer.length := by
  have hsplit : buffer.drop pos = (ch :: (line ++ crlf)) ++ rest := hdrop
  have hlen := congrArg List.length hdrop
  simp only [List.length_drop, List.length_cons, List.length_append, crlf, List.length_nil] at hlen
  refine ⟨?_, by omega⟩
  rw [← drop_add_of_drop_eq hsplit]
  congr 1
  simp [crlf, Nat.add_assoc]

/-- A value that was parsed begins with a line that has arrived. -/
theorem exists_line_of_parseAt {o : ParserOptions} {buffer : Bytes} {room pos n : ℕ} {v : Value}
    (h : parseAt o buffer (room + 1) pos = .ok v n) :
    ∃ ch line rest, ¬ crlf <:+: line ∧ buffer.drop pos = ch :: (line ++ crlf ++ rest) := by
  obtain ⟨-, ch, eol, -, -, hch, heol, -⟩ := parseAt_ok_cases h
  obtain ⟨i, hi, -⟩ := Option.map_eq_some_iff.mp heol
  obtain ⟨line, rest, hnext, -, hline⟩ := crlfIndex_eq_some hi
  refine ⟨ch, line, rest, hline, ?_⟩
  obtain ⟨hpos, hget⟩ := List.getElem?_eq_some_iff.mp hch
  rw [List.drop_eq_getElem_cons hpos, hget, hnext]

section Line

variable {o : ParserOptions} {buffer : Bytes} {room : ℕ} {element : Value → Bytes → Prop}
  (hparse : ∀ cursor v n,
    parseAt o buffer room cursor = .ok v n ↔ Begins element (buffer.drop cursor) v n)
  (hmax : buffer.length ≤ o.maxRequestBytes)

include hparse hmax

/-- Behind a line, `parse_at` reads what the grammar has there. -/
theorem parseAt_line_iff {line rest : Bytes} {ch : UInt8} {pos : ℕ} (hline : ¬ crlf <:+: line)
    (hdrop : buffer.drop pos = ch :: (line ++ crlf ++ rest)) {v : Value} {n : ℕ} :
    parseAt o buffer (room + 1) pos = .ok v n ↔
      ∃ more rest', rest = more ++ rest' ∧ n = line.length + 3 + more.length ∧
        Production o element ch line v more := by
  obtain ⟨hbehind, hafter⟩ := drop_of_line hdrop
  have hconsumed : pos + line.length + 3 - pos = line.length + 3 := by omega
  -- a line that is a value by itself
  have hplain : ∀ value, (∀ {w more}, Production o element ch line w more ↔ w = value ∧ more = []) →
      (InternalResult.ok value (line.length + 3) = .ok v n ↔
        ∃ more rest', rest = more ++ rest' ∧ n = line.length + 3 + more.length ∧
          Production o element ch line v more) := by
    intro value hproduction
    simp only [hproduction, InternalResult.ok.injEq]
    constructor
    · rintro ⟨rfl, rfl⟩
      exact ⟨[], rest, rfl, rfl, rfl, rfl⟩
    · rintro ⟨-, rest', -, rfl, rfl, rfl⟩
      exact ⟨rfl, rfl⟩
  rw [parseAt_line room hline hdrop]
  split_ifs with hsimple herror hinteger hdollar hstar
  · subst hsimple
    exact hplain _ ⟨by rintro ⟨⟩; exact ⟨rfl, rfl⟩, by rintro ⟨rfl, rfl⟩; exact .simpleString⟩
  · subst herror
    exact hplain _ ⟨by rintro ⟨⟩; exact ⟨rfl, rfl⟩, by rintro ⟨rfl, rfl⟩; exact .error⟩
  · subst hinteger
    cases hnumber : parseNumberLine line with
    | none =>
      refine ⟨nofun, ?_⟩
      rintro ⟨more, rest', -, -, hproduction⟩
      cases hproduction with
      | integer hi =>
        rw [parseNumberLine_iff.mpr hi] at hnumber
        cases hnumber
    | some number =>
      refine hplain (.integer number) ⟨?_, ?_⟩
      · intro hproduction
        cases hproduction with
        | integer hi =>
          rw [parseNumberLine_iff.mpr hi] at hnumber
          cases hnumber
          exact ⟨rfl, rfl⟩
      · rintro ⟨rfl, rfl⟩
        exact .integer (parseNumberLine_iff.mp hnumber)
  · subst hdollar
    rw [parseBulk_iff hmax hafter (by omega), hbehind, hconsumed]
  · subst hstar
    rw [parseArray_iff hparse hmax hafter (by omega), hbehind, hconsumed]
  · refine ⟨nofun, ?_⟩
    rintro ⟨more, rest', -, -, hproduction⟩
    cases hproduction <;> contradiction

/-- One call of `parse_at` accepts the texts whose elements the calls below it accept. -/
theorem parseAt_succ_iff (pos : ℕ) (v : Value) (n : ℕ) :
    parseAt o buffer (room + 1) pos = .ok v n ↔ Begins (Text o element) (buffer.drop pos) v n := by
  constructor
  · intro h
    obtain ⟨ch, line, rest, hline, hdrop⟩ := exists_line_of_parseAt h
    obtain ⟨more, rest', rfl, rfl, hproduction⟩ :=
      (parseAt_line_iff hparse hmax hline hdrop).mp h
    refine ⟨ch :: (line ++ crlf ++ more), rest', by simpa using hdrop, ?_, ch, line, more, rfl, hline,
      hproduction⟩
    simp only [List.length_cons, List.length_append, crlf, List.length_nil]
    omega
  · rintro ⟨bytes, rest, hdrop, rfl, ch, line, more, rfl, hline, hproduction⟩
    have hdrop' : buffer.drop pos = ch :: (line ++ crlf ++ (more ++ rest)) := by simpa using hdrop
    rw [parseAt_line_iff hparse hmax hline hdrop']
    refine ⟨more, rest, rfl, ?_, hproduction⟩
    simp only [List.length_cons, List.length_append, crlf, List.length_nil]
    omega

end Line

/-- **The parser is exact.** In a buffer within the request limit, `parse_at` returns a value if and
only if what is left at the position begins with a text of the value. -/
theorem parseAt_iff {o : ParserOptions} {buffer : Bytes} (hmax : buffer.length ≤ o.maxRequestBytes)
    (levels pos : ℕ) (v : Value) (n : ℕ) :
    parseAt o buffer (levels + 1) pos = .ok v n ↔
      Begins (Derives o levels) (buffer.drop pos) v n := by
  induction levels generalizing pos v n with
  | zero =>
    -- below the last level `parse_at` returns no value
    apply parseAt_succ_iff ?_ hmax
    intro cursor w m
    refine ⟨nofun, ?_⟩
    rintro ⟨-, -, -, -, hfalse⟩
    exact hfalse.elim
  | succ levels ih => exact parseAt_succ_iff ih hmax pos v n

/-! ## One text, one value

The grammar does not know the limit on a request, so a text can be given to a parser whose limit is
the text's own length. -/

/-- Higher limits derive more. -/
theorem Production.mono {o o' : ParserOptions} {element element' : Value → Bytes → Prop}
    (hbulk : o.maxBulkBytes ≤ o'.maxBulkBytes) (harray : o.maxArrayElements ≤ o'.maxArrayElements)
    (helement : ∀ v bytes, element v bytes → element' v bytes) {ch : UInt8} {line more : Bytes}
    {v : Value} (h : Production o element ch line v more) :
    Production o' element' ch line v more := by
  cases h with
  | simpleString => exact .simpleString
  | error => exact .error
  | integer hline => exact .integer hline
  | nullBulk hline => exact .nullBulk hline
  | bulkString hline hmax => exact .bulkString hline (hmax.trans hbulk)
  | nullArray hline => exact .nullArray hline
  | array hline hmax hparts =>
    exact .array hline (hmax.trans harray) (hparts.imp fun v bytes => helement v bytes)

/-- Higher limits derive more. -/
theorem Text.mono {o o' : ParserOptions} {element element' : Value → Bytes → Prop}
    (hbulk : o.maxBulkBytes ≤ o'.maxBulkBytes) (harray : o.maxArrayElements ≤ o'.maxArrayElements)
    (helement : ∀ v bytes, element v bytes → element' v bytes) (v : Value) (bytes : Bytes)
    (h : Text o element v bytes) : Text o' element' v bytes := by
  obtain ⟨ch, line, more, rfl, hline, hproduction⟩ := h
  exact ⟨ch, line, more, rfl, hline, hproduction.mono hbulk harray helement⟩

/-- Higher limits derive more. -/
theorem Derives.mono {o o' : ParserOptions} (hbulk : o.maxBulkBytes ≤ o'.maxBulkBytes)
    (harray : o.maxArrayElements ≤ o'.maxArrayElements) {levels : ℕ} (v : Value) (bytes : Bytes)
    (h : Derives o levels v bytes) : Derives o' levels v bytes := by
  induction levels generalizing v bytes with
  | zero => exact Text.mono hbulk harray (fun _ _ hfalse => hfalse) v bytes h
  | succ levels ih => exact Text.mono hbulk harray ih v bytes h

/-- A text has one value, and no text is a proper beginning of another. -/
theorem Begins.unique {o : ParserOptions} {levels n m : ℕ} {s : Bytes} {v w : Value}
    (hv : Begins (Derives o levels) s v n) (hw : Begins (Derives o levels) s w m) :
    v = w ∧ n = m := by
  have hparse : ∀ {x : Value} {k : ℕ}, Begins (Derives o levels) s x k →
      parseAt { o with maxRequestBytes := s.length } s (levels + 1) 0 = .ok x k := by
    rintro x k ⟨bytes, rest, hs, hk, hx⟩
    rw [parseAt_iff le_rfl]
    refine ⟨bytes, rest, hs, hk, Derives.mono ?_ ?_ x bytes hx⟩
    · exact le_rfl
    · exact le_rfl
  have h := (hparse hv).symm.trans (hparse hw)
  exact InternalResult.ok.inj h

/-! ## `next_value` -/

/-- A value that the grammar derives is returned, and nothing else. -/
theorem nextValue_iff {p : Parser} {ch : UInt8} {t : Bytes} (hbuf : p.buffer = ch :: t)
    (hch : isRespPrefix ch = true) (hmax : p.buffer.length ≤ p.options.maxRequestBytes)
    {v : Value} {raw : Bytes} {p' : Parser} :
    p.nextValue = (.ok v raw, p') ↔
      ∃ n, Begins (Derives p.options kMaxDepth) p.buffer v n ∧ raw = p.buffer.take n ∧
        p' = p.discard n := by
  have hiff : ∀ n, p.parseFront = .ok v n ↔ Begins (Derives p.options kMaxDepth) p.buffer v n := by
    intro n
    rw [parseFront_of_resp hbuf hch]
    exact parseAt_iff hmax kMaxDepth 0 v n
  constructor
  · intro h
    obtain ⟨n, hfront, -, hraw, hp'⟩ := parseFront_of_nextValue h
    exact ⟨n, (hiff n).mp hfront, hraw, hp'⟩
  · rintro ⟨n, hbegins, rfl, rfl⟩
    have hn := (begins_iff_take.mp hbegins).1
    rw [Parser.nextValue, (hiff n).mpr hbegins]
    simp only
    rw [if_neg (by omega)]

/-- **The parser accepts the grammar.** In a buffer within the request limit that starts with a RESP
prefix, `next_value` returns a value and consumes `n` bytes if and only if the first `n` bytes are a
text of the value; and whatever the buffer, one value and one length at most fit. -/
theorem nextValue_accepts_grammar (p : Parser) :
    (p.buffer.length ≤ p.options.maxRequestBytes →
      (∃ ch ∈ p.buffer.head?, isRespPrefix ch = true) →
      ∀ v raw p', p.nextValue = (.ok v raw, p') ↔
        ∃ n ≤ p.buffer.length, raw = p.buffer.take n ∧ p' = p.discard n ∧
          Derives p.options kMaxDepth v (p.buffer.take n)) ∧
    ∀ v w n m, n ≤ p.buffer.length → m ≤ p.buffer.length →
      Derives p.options kMaxDepth v (p.buffer.take n) →
      Derives p.options kMaxDepth w (p.buffer.take m) → v = w ∧ n = m := by
  constructor
  · rintro hmax ⟨ch, hhead, hch⟩ v raw p'
    obtain ⟨t, hbuf⟩ := List.head?_eq_some_iff.mp hhead
    rw [nextValue_iff hbuf hch hmax]
    constructor
    · rintro ⟨n, hbegins, hraw, hp'⟩
      obtain ⟨hn, htext⟩ := begins_iff_take.mp hbegins
      exact ⟨n, hn, hraw, hp', htext⟩
    · rintro ⟨n, hn, hraw, hp', htext⟩
      exact ⟨n, begins_iff_take.mpr ⟨hn, htext⟩, hraw, hp'⟩
  · intro v w n m hn hm hv hw
    exact Begins.unique (begins_iff_take.mpr ⟨hn, hv⟩) (begins_iff_take.mpr ⟨hm, hw⟩)

/-- A command of one argument and a byte behind it. -/
def oneArgument : Parser := ⟨{}, ascii "*1\r\n$1\r\na\r\n*"⟩

theorem oneArgument_accepted :
    ∃ n ≤ oneArgument.buffer.length, ascii "*1\r\n$1\r\na\r\n" = oneArgument.buffer.take n ∧
      ⟨{}, ascii "*"⟩ = oneArgument.discard n ∧
      Derives oneArgument.options kMaxDepth (.array [.bulkString (ascii "a")])
        (oneArgument.buffer.take n) := by
  have hmax : oneArgument.buffer.length ≤ oneArgument.options.maxRequestBytes := by decide +kernel
  exact ((nextValue_accepts_grammar oneArgument).1 hmax ⟨42, rfl, rfl⟩ _ _ _).mp rfl

end VeloxDb.Resp
