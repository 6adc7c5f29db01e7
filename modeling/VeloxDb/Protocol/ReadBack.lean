import VeloxDb.Protocol.Grammar

/-!
# What can be read back from a log

A command arrives as a line of words or as an array, whose elements may be strings, errors and
numbers; in a log it is an array of bulk strings. The limits are not checked in the same way for all
of these. Words are not counted, the lines in an array are not measured, and a bulk string takes more
bytes than a word. `Request.Fits` is what has to hold of the bytes that arrived, besides what the
parser has checked, if the command is to be read back.
-/

namespace VeloxDb.Resp

open Decimal Util

/-- What a client sends: a line, or an array with these elements. -/
inductive Request
  | inline (line : Bytes)
  | array (items : List Value)

/-- The buffer begins with the request. -/
inductive Arrived (o : ParserOptions) : Bytes → Request → Prop
  | inline {line rest : Bytes} (hfirst : ∀ ch ∈ (line ++ crlf).head?, isRespPrefix ch = false)
      (hline : ¬ crlf <:+: line) : Arrived o (line ++ crlf ++ rest) (.inline line)
  | array {text rest : Bytes} {items : List Value} (htext : Derives o kMaxDepth (.array items) text) :
      Arrived o (text ++ rest) (.array items)

/-- How long an element is as an argument. (A null or an array is no argument.) -/
def Value.argLength : Value → ℕ
  | .simpleString text | .error text | .bulkString text => text.length
  | .integer i => (printInt i).length
  | .nullBulk | .nullArray | .array _ => 0

/-- A bulk string that is not null. -/
def Value.isBulk : Value → Bool
  | .bulkString _ => true
  | _ => false

/-- The size of an array of bulk strings of these lengths. -/
def encodedSize (lengths : List ℕ) : ℕ :=
  (print lengths.length).length + 3 + (lengths.map fun n => (print n).length + n + 5).sum

/-- The checks that the parser does not make: it does not count the words of a line, it measures no
element of an array that is not a bulk string, and it does not know the size of the encoding. -/
def Request.Fits (o : ParserOptions) : Request → Prop
  | .inline line =>
    (splitWords line).length ≤ o.maxArrayElements ∧
      encodedSize ((splitWords line).map List.length) ≤ o.maxRequestBytes
  | .array items =>
    (∀ item ∈ items, item.isBulk = false → item.argLength ≤ o.maxBulkBytes) ∧
      encodedSize (items.map Value.argLength) ≤ o.maxRequestBytes

instance (o : ParserOptions) : ∀ request : Request, Decidable (request.Fits o)
  | .inline _ => inferInstanceAs (Decidable (_ ∧ _))
  | .array _ => inferInstanceAs (Decidable (_ ∧ _))

/-! ## Lengths -/

/-- The length of a record is fixed by those of its arguments. -/
theorem length_encodeCommand_eq (args : List Bytes) :
    (encodeCommand args).length = encodedSize (args.map List.length) := by
  rw [length_encodeCommand, encodedSize, List.length_map, List.length_flatMap, List.map_map]
  congr 2
  exact List.map_congr_left fun a _ => length_bulkStringFragment a

/-- The limits are about the lengths of the arguments only. -/
theorem withinLimits_iff_lengths {o : ParserOptions} {args : List Bytes} {lengths : List ℕ}
    (h : args.map List.length = lengths) :
    WithinLimits o args ↔
      (lengths.length ≤ o.maxArrayElements ∧ ∀ n ∈ lengths, n ≤ o.maxBulkBytes) ∧
        encodedSize lengths ≤ o.maxRequestBytes ∧
        lengths.length ≤ maxSize ∧ ∀ n ∈ lengths, n ≤ maxSize := by
  subst h
  simp only [List.length_map, List.forall_mem_map, ← length_encodeCommand_eq]
  exact ⟨fun h => ⟨⟨h.elements, h.bulk⟩, h.request, h.count_le, h.length_le⟩,
    fun h => ⟨h.1.1, h.1.2, h.2.1, h.2.2.1, h.2.2.2⟩⟩

/-- An argument is as long as its element says. -/
theorem lengths_of_commandArgs {items : List Value} {args : List Bytes}
    (h : commandArgs items = .ok args) : args.map List.length = items.map Value.argLength := by
  induction items generalizing args with
  | nil =>
    cases h
    rfl
  | cons item items ih =>
    cases hrest : commandArgs items with
    | error message =>
      cases item <;> (simp only [commandArgs, hrest] at h; cases h)
    | ok rest =>
      cases item <;>
        (simp only [commandArgs, hrest] at h; cases h) <;>
        simp only [List.map_cons, ih hrest, Value.argLength]

/-- The words of a line are not more and not longer than its bytes. -/
theorem splitWords_le (line : Bytes) :
    (splitWords line).length ≤ line.length ∧ ∀ word ∈ splitWords line, word.length ≤ line.length := by
  -- the bytes that are left and the words found so far are together not more than the line
  refine Loop.runUntil_induction splitWordsRound_lowers (s := (line, []))
    (I := fun s => s.2.length + s.1.length ≤ line.length ∧ ∀ word ∈ s.2, word.length ≤ line.length)
    (Q := fun words => words.length ≤ line.length ∧ ∀ word ∈ words, word.length ≤ line.length)
    ?_ ?_ ⟨by simp, by simp⟩
  · rintro ⟨left, words⟩ s' ⟨hcount, hwords⟩ hstep
    simp only [splitWordsRound] at hstep
    split_ifs at hstep with hnil hword
    · cases hstep
      have hshort := (List.dropWhile_suffix (l := left) isSpace).length_le
      have hrest := (List.dropWhile_suffix (l := left.dropWhile isSpace) fun b => !isSpace b).length_le
      exact ⟨by simp only at hcount ⊢; omega, hwords⟩
    · cases hstep
      have hshort := (List.dropWhile_suffix (l := left) isSpace).length_le
      have hsplit := congrArg List.length
        (List.takeWhile_append_dropWhile (p := fun b => !isSpace b) (l := left.dropWhile isSpace))
      have hpos := List.length_pos_iff.mpr hword
      rw [List.length_append] at hsplit
      simp only [List.length_append, List.length_singleton] at hcount ⊢
      refine ⟨by omega, fun word hmem => ?_⟩
      rcases List.mem_append.mp hmem with hmem | hmem
      · exact hwords word hmem
      · rw [List.mem_singleton.mp hmem]
        omega
  · rintro ⟨left, words⟩ r ⟨hcount, hwords⟩ hstep
    rw [splitWordsRound] at hstep
    split_ifs at hstep with hnil
    cases hstep
    exact ⟨by simp only at hcount ⊢; omega, hwords⟩

/-- The text of an element is not shorter than the argument, and a bulk string is within the limit.
-/
theorem argLength_le_of_derives {o : ParserOptions} {levels : ℕ} {v : Value} {text : Bytes}
    (h : Derives o levels v text) :
    v.argLength ≤ text.length ∧ (v.isBulk = true → v.argLength ≤ o.maxBulkBytes) := by
  obtain ⟨element, htext⟩ : ∃ element, Text o element v text := by
    cases levels with
    | zero => exact ⟨_, h⟩
    | succ levels => exact ⟨_, h⟩
  obtain ⟨ch, line, more, rfl, -, hproduction⟩ := htext
  simp only [List.length_cons, List.length_append, crlf, List.length_nil]
  have hother : false = true → v.argLength ≤ o.maxBulkBytes := fun hbulk => by cases hbulk
  cases hproduction with
  | simpleString | error => exact ⟨by simp only [Value.argLength]; omega, hother⟩
  | integer hline =>
    have hle := length_printInt_le_of_wholeI64 (wholeI64_iff.mpr hline)
    exact ⟨by simp only [Value.argLength]; omega, hother⟩
  | bulkString hline hmax =>
    simp only [Value.argLength, List.length_append]
    exact ⟨by omega, fun _ => hmax⟩
  | nullBulk | nullArray | array => exact ⟨Nat.zero_le _, hother⟩

/-- What the grammar says of an array: where it begins, and what is within the limits. -/
theorem limits_of_derives_array {o : ParserOptions} {levels : ℕ} {items : List Value} {text : Bytes}
    (h : Derives o (levels + 1) (.array items) text) :
    text.head? = some 42 ∧ items.length ≤ o.maxArrayElements ∧ items.length ≤ maxSize ∧
      ∀ item ∈ items,
        item.argLength ≤ text.length ∧ (item.isBulk = true → item.argLength ≤ o.maxBulkBytes) := by
  obtain ⟨ch, line, more, rfl, -, hproduction⟩ := h
  cases hproduction with
  | @array _ _ parts hline hmax hparts =>
    have hcount := hline.2.2
    simp only [int64Max] at hcount
    refine ⟨rfl, hmax, by rw [maxSize]; omega, fun item hitem => ?_⟩
    obtain ⟨i, hi, rfl⟩ := List.getElem_of_mem hitem
    have hi' : i < parts.length := hparts.length_eq ▸ hi
    have hderives : Derives o levels items[i] parts[i] := hparts.get hi hi'
    have hpart : parts[i] ∈ parts := List.getElem_mem hi'
    obtain ⟨hle, hbulk⟩ := argLength_le_of_derives hderives
    have hflatten : parts[i].length ≤ parts.flatten.length :=
      (List.sublist_flatten_of_mem hpart).length_le
    simp only [List.length_cons, List.length_append]
    exact ⟨by omega, hbulk⟩

/-! ## What arrived and what was parsed -/

section Raised

variable {o : ParserOptions} {limit : ℕ} (hlimit : o.maxRequestBytes ≤ limit)

include hlimit

/-- A bulk string that is parsed is so under a higher limit. -/
theorem parseBulk_raise {buffer line : Bytes} {pos afterLine n : ℕ} {v : Value}
    (h : parseBulk o buffer pos afterLine line = .ok v n) :
    parseBulk { o with maxRequestBytes := limit } buffer pos afterLine line = .ok v n := by
  rw [parseBulk] at h ⊢
  cases hnumber : parseNumberLine line with
  | none =>
    rw [hnumber] at h
    cases h
  | some length =>
    simp only [hnumber] at h ⊢
    split_ifs at h with hneg hnull hlong hreq hmore hcrlf
    · simpa only [if_neg hneg, if_pos hnull] using h
    · have hreq' : ¬ (afterLine > limit ∨ length.toNat > limit - afterLine) := by omega
      simpa only [if_neg hneg, if_neg hnull, if_neg hlong, if_neg hreq', if_neg hmore, if_neg hcrlf]
        using h

/-- Elements that are parsed are so under a higher limit. -/
theorem parseElements_raise {parse parse' : ℕ → InternalResult}
    (hparse : ∀ cursor v n, parse cursor = .ok v n → parse' cursor = .ok v n) {pos count cursor n : ℕ}
    {items : List Value} {v : Value}
    (h : parseElements o parse pos count cursor items = .ok v n) :
    parseElements { o with maxRequestBytes := limit } parse' pos count cursor items = .ok v n := by
  induction count generalizing cursor items with
  | zero => exact h
  | succ count ih =>
    obtain ⟨value, consumed, hvalue, hle, hrest⟩ := parseElements_succ_iff.mp h
    exact parseElements_succ_iff.mpr
      ⟨value, consumed, hparse _ _ _ hvalue, hle.trans hlimit, ih hrest⟩

/-- An array that is parsed is so under a higher limit. -/
theorem parseArray_raise {parse parse' : ℕ → InternalResult}
    (hparse : ∀ cursor v n, parse cursor = .ok v n → parse' cursor = .ok v n)
    {pos afterLine n : ℕ} {line : Bytes} {v : Value}
    (h : parseArray o parse pos afterLine line = .ok v n) :
    parseArray { o with maxRequestBytes := limit } parse' pos afterLine line = .ok v n := by
  rcases parseArray_ok_cases h with ⟨hnumber, rfl, rfl⟩ | ⟨count, hnumber, hcount, hloop⟩
  · rw [parseArray, hnumber]
    rfl
  · have hbound := (parseNumberLine_iff.mp hnumber).2.2
    simp only [int64Max] at hbound
    have hcount' : ¬ (count > o.maxArrayElements ∨ count > uint64Max) := by
      rw [uint64Max]
      omega
    rw [parseArray, hnumber]
    simp only [Int.toNat_natCast, if_neg hcount']
    rw [if_neg (by omega), if_neg (by omega)]
    exact parseElements_raise hlimit hparse hloop

/-- A larger limit on a request changes nothing for a value that was accepted. -/
theorem parseAt_raise {buffer : Bytes} {room pos n : ℕ} {v : Value}
    (h : parseAt o buffer room pos = .ok v n) :
    parseAt { o with maxRequestBytes := limit } buffer room pos = .ok v n := by
  -- by induction on the levels of elements that are allowed
  induction room generalizing pos n v with
  | zero => cases h
  | succ room ih =>
    rw [parseAt] at h ⊢
    cases hch : buffer[pos]? with
    | none => simp only [hch] at h; cases h
    | some ch =>
      cases heol : findCrlf buffer (pos + 1) with
      | none => simp only [hch, heol] at h; split_ifs at h
      | some eol =>
        simp only [hch, heol] at h ⊢
        split_ifs at h ⊢ with hsimple herror hinteger hdollar hstar
        · exact h
        · exact h
        · exact h
        · exact parseBulk_raise hlimit h
        · exact parseArray_raise hlimit (fun cursor v n => ih) h

end Raised

/-- A value that was parsed has a text there. -/
theorem begins_of_parseAt {o : ParserOptions} {buffer : Bytes} {levels pos n : ℕ} {v : Value}
    (h : parseAt o buffer (levels + 1) pos = .ok v n) :
    Begins (Derives o levels) (buffer.drop pos) v n := by
  have hraised := parseAt_raise (Nat.le_max_left o.maxRequestBytes buffer.length) h
  obtain ⟨bytes, rest, hdrop, hn, htext⟩ := (parseAt_iff (Nat.le_max_right _ _) _ _ _ _).mp hraised
  refine ⟨bytes, rest, hdrop, hn, Derives.mono ?_ ?_ v bytes htext⟩
  · exact le_rfl
  · exact le_rfl

/-- A first byte that is no prefix makes it a line of words. -/
theorem parseFront_of_inline {p : Parser} {ch : UInt8} (hhead : p.buffer.head? = some ch)
    (hch : isRespPrefix ch = false) : p.parseFront = parseInline p.options p.buffer 0 := by
  obtain ⟨t, hbuffer⟩ := List.head?_eq_some_iff.mp hhead
  rw [Parser.parseFront, hbuffer]
  simp only [hch, Bool.false_eq_true, if_false]

/-- A command that was accepted has arrived. -/
theorem arrived_of_parseFront {p : Parser} {items : List Value} {n : ℕ}
    (h : p.parseFront = .ok (.array items) n) : ∃ request, Arrived p.options p.buffer request := by
  cases hhead : p.buffer.head? with
  | none =>
    rw [Parser.parseFront, List.head?_eq_none_iff.mp hhead] at h
    cases h
  | some ch =>
    cases hch : isRespPrefix ch with
    | true =>
      obtain ⟨t, hbuffer⟩ := List.head?_eq_some_iff.mp hhead
      rw [parseFront_of_resp hbuffer hch] at h
      obtain ⟨bytes, rest, hdrop, -, htext⟩ := begins_of_parseAt h
      rw [List.drop_zero] at hdrop
      exact ⟨.array items, hdrop ▸ .array htext⟩
    | false =>
      rw [parseFront_of_inline hhead hch, parseInline] at h
      cases heol : findCrlf p.buffer 0 with
      | none => simp only [heol] at h; split_ifs at h
      | some eol =>
        rw [findCrlf, List.drop_zero, Option.map_eq_some_iff] at heol
        obtain ⟨i, hi, -⟩ := heol
        obtain ⟨line, rest, hbuffer, -, hline⟩ := crlfIndex_eq_some hi
        refine ⟨.inline line, hbuffer ▸ .inline (fun ch' hch' => ?_) hline⟩
        have hsame : p.buffer.head? = some ch' := by
          rw [hbuffer, List.head?_append, hch', Option.some_or]
        rw [hhead, Option.some.injEq] at hsame
        exact hsame ▸ hch

/-- The words of a line that was accepted, and that they were measured. -/
theorem parseInline_arrived {o : ParserOptions} {line rest : Bytes} {items : List Value} {n : ℕ}
    (hline : ¬ crlf <:+: line) (h : parseInline o (line ++ crlf ++ rest) 0 = .ok (.array items) n) :
    items = (splitWords line).map .bulkString ∧
      ∀ word ∈ splitWords line, word.length ≤ o.maxBulkBytes := by
  have heol : findCrlf (line ++ crlf ++ rest) 0 = some (0 + line.length) :=
    findCrlf_of_drop hline rfl
  have htake : (line ++ crlf ++ rest).take line.length = line := by
    rw [List.append_assoc, List.take_left]
  simp only [parseInline, heol, List.drop_zero, Nat.zero_add, Nat.sub_zero, htake] at h
  split_ifs at h with hlong
  cases h
  exact ⟨rfl, by simpa using hlong⟩

/-- An array that arrived is the one that was parsed. -/
theorem sent_of_parseFront {p : Parser} {text rest : Bytes} {sent items : List Value} {n : ℕ}
    (hb : p.buffer = text ++ rest) (htext : Derives p.options kMaxDepth (.array sent) text)
    (h : p.parseFront = .ok (.array items) n) : sent = items := by
  have hhead : p.buffer.head? = some 42 := by
    rw [hb, List.head?_append, (limits_of_derives_array htext).1, Option.some_or]
  obtain ⟨t, hbuffer⟩ := List.head?_eq_some_iff.mp hhead
  rw [parseFront_of_resp hbuffer rfl] at h
  have hparsed := begins_of_parseAt h
  rw [List.drop_zero] at hparsed
  exact Value.array.inj (Begins.unique ⟨text, rest, hb, rfl, htext⟩ hparsed).1

/-- The arguments are within the limits exactly if the request fits. -/
theorem withinLimits_iff_fits {p : Parser} (hsize : p.buffer.length ≤ maxSize) {items : List Value}
    {n : ℕ} (hfront : p.parseFront = .ok (.array items) n) {args : List Bytes}
    (hargs : commandArgs items = .ok args) {request : Request}
    (h : Arrived p.options p.buffer request) :
    WithinLimits p.options args ↔ request.Fits p.options := by
  have hlengths := lengths_of_commandArgs hargs
  have hsize' : ∀ {text rest : Bytes}, p.buffer = text ++ rest → text.length ≤ maxSize := by
    intro text rest heq
    rw [heq, List.length_append] at hsize
    omega
  generalize hb : p.buffer = buffer at h
  cases h with
  | @inline line rest hfirst hline =>
    obtain ⟨ch, hch⟩ : ∃ ch, (line ++ crlf).head? = some ch := by
      cases line <;> exact ⟨_, rfl⟩
    have hhead : p.buffer.head? = some ch := by
      rw [hb]
      exact List.head?_append.trans (by rw [hch, Option.some_or])
    rw [parseFront_of_inline hhead (hfirst ch hch), hb] at hfront
    obtain ⟨rfl, hwords⟩ := parseInline_arrived hline hfront
    -- the words were measured, and they are not longer than the line
    have hline := hsize' hb
    rw [List.length_append] at hline
    obtain ⟨hcount, hword⟩ := splitWords_le line
    have hargLength : ((splitWords line).map Value.bulkString).map Value.argLength
        = (splitWords line).map List.length := by
      rw [List.map_map]
      rfl
    rw [withinLimits_iff_lengths hlengths, hargLength, Request.Fits]
    simp only [List.length_map, List.forall_mem_map]
    constructor
    · rintro ⟨⟨hcount, -⟩, hencoded, -⟩
      exact ⟨hcount, hencoded⟩
    · rintro ⟨hmax, hencoded⟩
      exact ⟨⟨hmax, hwords⟩, hencoded, by omega, fun word hmem => (hword word hmem).trans (by omega)⟩
  | @array text rest sent htext =>
    obtain ⟨hstar, hmax, hcount, hitems⟩ := limits_of_derives_array htext
    obtain rfl := sent_of_parseFront hb htext hfront
    have htext := hsize' hb
    rw [withinLimits_iff_lengths hlengths, Request.Fits]
    simp only [List.length_map, List.forall_mem_map]
    constructor
    · rintro ⟨⟨-, hlong⟩, hencoded, -⟩
      exact ⟨fun item hitem _ => hlong item hitem, hencoded⟩
    · rintro ⟨hlong, hencoded⟩
      refine ⟨⟨hmax, fun item hitem => ?_⟩, hencoded, hcount, fun item hitem => ?_⟩
      · cases hbulk : item.isBulk with
        | true => exact (hitems item hitem).2 hbulk
        | false => exact hlong item hitem hbulk
      · exact (hitems item hitem).1.trans htext

/-- **What can be read back.** A command that a parser has accepted, in whatever form it arrived, can
be read back from its encoding by a parser with the same options exactly if the request fits. A
request that is an array of bulk strings always does. The first hypothesis is a fact about
`std::string`, which is not longer than `max_size()`. -/
theorem accepted_readBack_iff {p p' : Parser} {c : Command} (hsize : p.buffer.length ≤ maxSize)
    (h : p.nextCommand = (.ok c, p')) :
    (∃ request, Arrived p.options p.buffer request) ∧
      ∀ request, Arrived p.options p.buffer request →
        (ReadBack p.options c.args ↔ request.Fits p.options) ∧
        ∀ texts : List Bytes, request = .array (texts.map .bulkString) → ReadBack p.options c.args := by
  obtain ⟨items, hvalue, hargs⟩ := nextValue_of_nextCommand h
  obtain ⟨n, hfront, -⟩ := parseFront_of_nextValue hvalue
  refine ⟨arrived_of_parseFront hfront, fun request hrequest => ⟨?_, ?_⟩⟩
  · rw [readBack_iff]
    exact withinLimits_iff_fits hsize hfront hargs hrequest
  · rintro texts rfl
    generalize hb : p.buffer = buffer at hrequest
    cases hrequest with
    | @array text rest _ htext =>
      obtain rfl := sent_of_parseFront hb htext hfront
      rw [commandArgs_bulkStrings, Except.ok.injEq] at hargs
      rw [← hargs]
      refine readBack_iff.mpr (withinLimits_of_bulkArray ?_ hvalue)
      rw [hb]
      exact List.head?_append.trans (by rw [(limits_of_derives_array htext).1, Option.some_or])

/-- A simple string, a bulk string and a number with leading zeros. -/
def mixedArray : Parser := ⟨⟨64, 3, 3⟩, ascii "*3\r\n+SET\r\n$1\r\nk\r\n:007\r\n"⟩

theorem mixedArray_readBack :
    mixedArray.nextCommand
        = (.ok ⟨[ascii "SET", ascii "k", ascii "7"], mixedArray.buffer⟩, ⟨mixedArray.options, []⟩) ∧
      ReadBack mixedArray.options [ascii "SET", ascii "k", ascii "7"] := by
  have hnext : mixedArray.nextCommand
      = (.ok ⟨[ascii "SET", ascii "k", ascii "7"], mixedArray.buffer⟩, ⟨mixedArray.options, []⟩) := by
    decide +kernel
  have harrived : Arrived mixedArray.options mixedArray.buffer
      (.array [.simpleString (ascii "SET"), .bulkString (ascii "k"), .integer 7]) := by
    have hset : Derives mixedArray.options 7 (.simpleString (ascii "SET")) (ascii "+SET\r\n") :=
      ⟨43, ascii "SET", [], by decide +kernel, by decide +kernel, .simpleString⟩
    have hkey : Derives mixedArray.options 7 (.bulkString (ascii "k")) (ascii "$1\r\nk\r\n") :=
      ⟨36, ascii "1", ascii "k\r\n", by decide +kernel, by decide +kernel,
        .bulkString (wholeI64_iff.mp (by decide +kernel)) (by decide +kernel)⟩
    have hnumber : Derives mixedArray.options 7 (.integer 7) (ascii ":007\r\n") :=
      ⟨58, ascii "007", [], by decide +kernel, by decide +kernel,
        .integer (wholeI64_iff.mp (by decide +kernel))⟩
    have hcount : Int64Line (ascii "3") 3 := wholeI64_iff.mp (by decide +kernel)
    have harray : Derives mixedArray.options kMaxDepth
        (.array [.simpleString (ascii "SET"), .bulkString (ascii "k"), .integer 7]) mixedArray.buffer :=
      ⟨42, ascii "3", _, by decide +kernel, by decide +kernel,
        .array hcount (by decide +kernel) (.cons hset (.cons hkey (.cons hnumber .nil)))⟩
    exact List.append_nil mixedArray.buffer ▸ .array harray
  have hread := (accepted_readBack_iff (by decide +kernel) hnext).2 _ harrived
  exact ⟨hnext, hread.1.mpr (by decide +kernel)⟩

/-- At most one element in an array. -/
def oneElement : ParserOptions := ⟨64, 1, 64⟩

/-- Two words on a line are accepted, though an array may have one element only, so the encoding of
the command is refused. -/
theorem inline_not_readBack :
    (⟨oneElement, ascii "DEL k\r\n"⟩ : Parser).nextCommand
        = (.ok ⟨[ascii "DEL", ascii "k"], ascii "DEL k\r\n"⟩, ⟨oneElement, []⟩) ∧
      ¬ ReadBack oneElement [ascii "DEL", ascii "k"] := by
  refine ⟨by decide +kernel, fun h => ?_⟩
  have hlimits := readBack_iff.mp h
  exact absurd hlimits (by decide +kernel)

end VeloxDb.Resp
