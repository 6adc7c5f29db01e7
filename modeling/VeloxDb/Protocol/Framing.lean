import Mathlib.Data.List.Infix
import VeloxDb.Protocol.Resp

/-!
# Framing: reading encoded commands back, whole and cut short

`nextCommand_encode` reads one encoded command off the front of a buffer, whatever follows it.
`nextCommand_cut` says that a proper prefix of an encoded command is never an error and never a
shorter command: the parser asks for more.

Both are proved position by position. A piece of the wire format is located by the bytes that stand
at and behind a position (`buffer.drop pos = …`), so the absolute positions of the source and the
limit checks made against them stay visible.
-/

namespace VeloxDb.Resp

open Decimal Util

/-- The largest count or length that the parser can read back: it reads them as `int64_t`. It is
also `std::string::max_size()`, so no string of the program is longer. -/
def maxSize : ℕ := 2 ^ 63 - 1

/-- A command whose encoding passes every limit of a parser with options `o`. -/
structure WithinLimits (o : ParserOptions) (args : List Bytes) : Prop where
  elements : args.length ≤ o.maxArrayElements
  bulk : ∀ a ∈ args, a.length ≤ o.maxBulkBytes
  request : (encodeCommand args).length ≤ o.maxRequestBytes
  count_le : args.length ≤ maxSize
  length_le : ∀ a ∈ args, a.length ≤ maxSize

instance (o : ParserOptions) (args : List Bytes) : Decidable (WithinLimits o args) :=
  decidable_of_iff (args.length ≤ o.maxArrayElements ∧ (∀ a ∈ args, a.length ≤ o.maxBulkBytes) ∧
      (encodeCommand args).length ≤ o.maxRequestBytes ∧ args.length ≤ maxSize ∧
      ∀ a ∈ args, a.length ≤ maxSize)
    ⟨fun ⟨h₁, h₂, h₃, h₄, h₅⟩ => ⟨h₁, h₂, h₃, h₄, h₅⟩, fun ⟨h₁, h₂, h₃, h₄, h₅⟩ => ⟨h₁, h₂, h₃, h₄, h₅⟩⟩

/-! ## Lists -/

/-- A prefix of a concatenation ends in the first part or reaches into the second. -/
theorem prefix_append_cases {α : Type*} {t a b : List α} (h : t <+: a ++ b) :
    (t <+: a ∧ t.length < a.length) ∨ ∃ t', t = a ++ t' ∧ t' <+: b := by
  by_cases hlen : t.length < a.length
  · exact Or.inl ⟨List.prefix_of_prefix_length_le h (List.prefix_append a b) (by omega), hlen⟩
  · obtain ⟨t', rfl⟩ := List.prefix_of_prefix_length_le (List.prefix_append a b) h (by omega)
    exact Or.inr ⟨t', rfl, (List.prefix_append_right_inj a).mp h⟩

/-- What follows a known text starts behind it. -/
theorem drop_add_of_drop_eq {α : Type*} {buffer a b : List α} {pos : ℕ}
    (h : buffer.drop pos = a ++ b) : buffer.drop (pos + a.length) = b := by
  rw [← List.drop_drop, h, List.drop_left]

/-- The byte at a position is the first of what follows. -/
theorem getElem?_of_drop_eq {α : Type*} {buffer t : List α} {ch : α} {pos : ℕ}
    (h : buffer.drop pos = ch :: t) : buffer[pos]? = some ch := by
  have h0 := congrArg (·[0]?) h
  simpa using h0

/-! ## Lines -/

/-- The first CRLF is the one behind a text without CRLF. -/
theorem crlfIndex_append_crlf {line : Bytes} (hline : ¬ crlf <:+: line) (rest : Bytes) :
    crlfIndex (line ++ crlf ++ rest) = some line.length := by
  induction line with
  | nil => rfl
  | cons b t ih =>
    have ht : ¬ crlf <:+: t := fun h => hline (h.trans (List.suffix_cons b t).isInfix)
    rw [List.cons_append, List.cons_append, crlfIndex.eq_2, ih ht]
    · rfl
    · -- the byte does not begin a CRLF
      rintro u rfl hu
      cases t with
      | nil => cases hu
      | cons c t =>
        obtain rfl : c = 10 := (List.cons.inj hu).1
        exact hline (List.prefix_append crlf t).isInfix

/-- A line whose CRLF has not arrived. -/
theorem crlfIndex_eq_none_of_cut {line t : Bytes} (hline : (13 : UInt8) ∉ line)
    (ht : t <+: line ++ crlf) (hlen : t.length < (line ++ crlf).length) : crlfIndex t = none := by
  induction line generalizing t with
  | nil =>
    obtain ⟨u, hu⟩ := ht
    match t with
    | [] => rfl
    | [b] => simp [crlfIndex]
    | b :: c :: t' => simp [crlf] at hlen
  | cons b l ih =>
    rw [List.mem_cons, not_or] at hline
    match t with
    | [] => rfl
    | c :: t' =>
      rw [List.cons_append, List.cons_prefix_cons] at ht
      obtain ⟨rfl, ht⟩ := ht
      simp only [List.cons_append, List.length_cons, Nat.add_lt_add_iff_right] at hlen
      rw [crlfIndex.eq_2 _ _ (by rintro t'' rfl _; exact hline.1 rfl), ih hline.2 ht hlen]
      rfl

/-- The line at a position ends at its CRLF. -/
theorem findCrlf_of_drop {buffer line rest : Bytes} {pos : ℕ} (hline : ¬ crlf <:+: line)
    (h : buffer.drop pos = line ++ crlf ++ rest) :
    findCrlf buffer pos = some (pos + line.length) := by
  rw [findCrlf, h, crlfIndex_append_crlf hline]
  rfl

/-- A printed count has no carriage return. -/
theorem not_mem_print (n : ℕ) : (13 : UInt8) ∉ print n := fun h => by
  simpa [isDigit] using print_isDigit n 13 h

/-- Without a carriage return there is no CRLF. -/
theorem not_infix_of_not_mem {line : Bytes} (hline : (13 : UInt8) ∉ line) : ¬ crlf <:+: line :=
  fun h => hline (h.subset (by simp [crlf]))

/-- A printed count is read back. -/
theorem parseNumberLine_print {n : ℕ} (hn : n ≤ maxSize) :
    parseNumberLine (print n) = some (n : ℤ) := by
  have hprint : printInt (n : ℤ) = print n := by
    rw [printInt, if_neg (by omega), Int.natAbs_natCast]
  have hrange : InI64 (n : ℤ) := by
    simp only [maxSize] at hn
    constructor
    · rw [int64Min]
      omega
    · rw [int64Max]
      omega
  rw [parseNumberLine, if_neg (print_ne_nil n), ← hprint, wholeI64_printInt hrange]

/-! ## Bulk strings -/

/-- The length of a bulk string with its header. -/
theorem length_bulkStringFragment (v : Bytes) :
    (bulkStringFragment v).length = (print v.length).length + v.length + 5 := by
  simp only [bulkStringFragment, crlf, List.length_cons, List.length_append, List.length_nil]
  omega

/-- The payload behind a length line, complete. -/
theorem parseBulk_complete {o : ParserOptions} {buffer line v rest : Bytes} {pos afterLine : ℕ}
    (hline : parseNumberLine line = some (v.length : ℤ))
    (hd : buffer.drop afterLine = v ++ crlf ++ rest) (hpos : pos ≤ afterLine)
    (hbulk : v.length ≤ o.maxBulkBytes) (hreq : afterLine + v.length + 2 ≤ o.maxRequestBytes)
    (hrep : v.length ≤ maxSize) :
    parseBulk o buffer pos afterLine line
      = .ok (.bulkString v) (afterLine - pos + v.length + 2) := by
  have hend : buffer.drop (afterLine + v.length) = crlf ++ rest := by
    rw [List.append_assoc] at hd
    exact drop_add_of_drop_eq hd
  have hlen : afterLine + v.length + 2 ≤ buffer.length := by
    have hl := congrArg List.length hd
    simp only [List.length_drop, List.length_append, crlf, List.length_cons, List.length_nil] at hl
    omega
  have hcr : buffer[afterLine + v.length]? = some 13 := getElem?_of_drop_eq hend
  have hlf : buffer[afterLine + v.length + 1]? = some 10 :=
    getElem?_of_drop_eq (drop_add_of_drop_eq (a := [13]) hend)
  simp only [maxSize] at hrep
  rw [parseBulk, hline]
  simp only [Int.toNat_natCast, uint64Max]
  rw [if_neg (by omega), if_neg (by omega), if_neg (by omega), if_neg (by omega),
    if_neg (by omega), if_neg (by simp [hcr, hlf]), hd, List.append_assoc, List.take_left]
  congr 1
  omega

/-- The payload behind a length line, cut short. -/
theorem parseBulk_cut {o : ParserOptions} {buffer : Bytes} {n pos afterLine : ℕ}
    (hcut : buffer.length < afterLine + n + 2) (hbulk : n ≤ o.maxBulkBytes)
    (hreq : afterLine + n + 2 ≤ o.maxRequestBytes) (hrep : n ≤ maxSize) :
    parseBulk o buffer pos afterLine (print n) = .needMore := by
  simp only [maxSize] at hrep
  rw [parseBulk, parseNumberLine_print hrep]
  simp only [Int.toNat_natCast, uint64Max]
  rw [if_neg (by omega), if_neg (by omega), if_neg (by omega), if_neg (by omega),
    if_pos (by omega)]

/-- A line that has arrived: the prefix decides what becomes of it. -/
theorem parseAt_line {o : ParserOptions} {buffer line rest : Bytes} {ch : UInt8} {pos : ℕ} (room : ℕ)
    (hline : ¬ crlf <:+: line) (hd : buffer.drop pos = ch :: (line ++ crlf ++ rest)) :
    parseAt o buffer (room + 1) pos
      = if ch = 43 then .ok (.simpleString line) (line.length + 3)
        else if ch = 45 then .ok (.error line) (line.length + 3)
        else if ch = 58 then
          match parseNumberLine line with
          | none => .error (ascii "invalid integer")
          | some number => .ok (.integer number) (line.length + 3)
        else if ch = 36 then parseBulk o buffer pos (pos + line.length + 3) line
        else if ch = 42 then
          parseArray o (parseAt o buffer room) pos (pos + line.length + 3) line
        else .error (ascii "unknown RESP type") := by
  have hnext : buffer.drop (pos + 1) = line ++ crlf ++ rest :=
    drop_add_of_drop_eq (a := [ch]) hd
  have heol := findCrlf_of_drop hline hnext
  have hafter : pos + 1 + line.length + 2 = pos + line.length + 3 := by omega
  have hconsumed : pos + line.length + 3 - pos = line.length + 3 := by omega
  have htake : (buffer.drop (pos + 1)).take (pos + 1 + line.length - (pos + 1)) = line := by
    rw [hnext, Nat.add_sub_cancel_left, List.append_assoc, List.take_left]
  cases hnumber : parseNumberLine line with
  | none => simp only [parseAt, getElem?_of_drop_eq hd, heol, htake, hafter, hconsumed, hnumber]
  | some number =>
    simp only [parseAt, getElem?_of_drop_eq hd, heol, htake, hafter, hconsumed, hnumber]

/-- Lines of the `$` and `*` prefixes. -/
theorem parseAt_of_line {o : ParserOptions} {buffer line rest : Bytes} {ch : UInt8} {room pos : ℕ}
    (hline : (13 : UInt8) ∉ line) (hd : buffer.drop pos = ch :: (line ++ crlf ++ rest)) :
    (ch = 36 → parseAt o buffer (room + 1) pos
      = parseBulk o buffer pos (pos + line.length + 3) line) ∧
    (ch = 42 → parseAt o buffer (room + 1) pos
      = parseArray o (parseAt o buffer room) pos (pos + line.length + 3) line) := by
  rw [parseAt_line room (not_infix_of_not_mem hline) hd]
  constructor <;> rintro rfl <;> rfl

/-- A line that has not arrived makes the parser ask for more. -/
theorem parseAt_cut_line {o : ParserOptions} {buffer t : Bytes} {ch : UInt8} {room pos : ℕ}
    (hd : buffer.drop pos = ch :: t) (ht : crlfIndex t = none)
    (hreq : buffer.length - pos ≤ o.maxRequestBytes) :
    parseAt o buffer (room + 1) pos = .needMore := by
  have hnext : buffer.drop (pos + 1) = t := drop_add_of_drop_eq (a := [ch]) hd
  have heol : findCrlf buffer (pos + 1) = none := by rw [findCrlf, hnext, ht]; rfl
  simp only [parseAt, getElem?_of_drop_eq hd, heol]
  rw [if_neg (by omega)]

/-- A bulk string is read back. -/
theorem parseAt_fragment {o : ParserOptions} {buffer v rest : Bytes} {pos : ℕ} (room : ℕ)
    (hd : buffer.drop pos = bulkStringFragment v ++ rest) (hbulk : v.length ≤ o.maxBulkBytes)
    (hreq : pos + (bulkStringFragment v).length ≤ o.maxRequestBytes)
    (hrep : v.length ≤ maxSize) :
    parseAt o buffer (room + 1) pos = .ok (.bulkString v) (bulkStringFragment v).length := by
  have hlen := length_bulkStringFragment v
  have hd' : buffer.drop pos
      = 36 :: (print v.length ++ crlf ++ (v ++ crlf ++ rest)) := by
    rw [hd]
    simp [bulkStringFragment, List.append_assoc]
  have hpay : buffer.drop (pos + (print v.length).length + 3) = v ++ crlf ++ rest := by
    have h := drop_add_of_drop_eq (a := 36 :: (print v.length ++ crlf)) (b := v ++ crlf ++ rest)
      (by simpa using hd')
    rw [← h]
    congr 1
    simp [crlf, Nat.add_assoc]
  rw [(parseAt_of_line (not_mem_print _) hd').1 rfl,
    parseBulk_complete (parseNumberLine_print hrep) hpay (by omega) hbulk (by omega) hrep]
  congr 1
  omega

/-- Of a bulk string that is cut, more is needed. -/
theorem parseAt_fragment_cut {o : ParserOptions} {buffer t v : Bytes} {pos : ℕ} (room : ℕ)
    (hd : buffer.drop pos = t) (ht : t <+: bulkStringFragment v)
    (hlt : t.length < (bulkStringFragment v).length) (hbulk : v.length ≤ o.maxBulkBytes)
    (hreq : pos + (bulkStringFragment v).length ≤ o.maxRequestBytes)
    (hrep : v.length ≤ maxSize) :
    parseAt o buffer (room + 1) pos = .needMore := by
  have hlen := length_bulkStringFragment v
  have hbuf : buffer.length - pos = t.length := by rw [← hd, List.length_drop]
  match t with
  | [] =>
    have hnone : buffer[pos]? = none := by
      rw [List.getElem?_eq_none_iff]
      simpa using hd
    simp only [parseAt, hnone]
  | ch :: t' =>
    rw [bulkStringFragment, List.cons_prefix_cons, List.append_assoc] at ht
    obtain ⟨rfl, ht'⟩ := ht
    rcases prefix_append_cases ht' with ⟨hp, hpl⟩ | ⟨u, rfl, hu⟩
    · exact parseAt_cut_line hd (crlfIndex_eq_none_of_cut (not_mem_print _) hp hpl) (by omega)
    · rw [(parseAt_of_line (not_mem_print _) hd).1 rfl]
      refine parseBulk_cut ?_ hbulk (by omega) hrep
      simp only [List.length_cons, List.length_append, crlf, List.length_nil] at hbuf hlt
      omega

/-! ## The elements of a command -/

/-- The loop returns if it goes on behind an element that it has parsed, and returns there. -/
theorem parseElements_succ_iff {o : ParserOptions} {parse : ℕ → InternalResult}
    {pos count cursor n : ℕ} {items : List Value} {v : Value} :
    parseElements o parse pos (count + 1) cursor items = .ok v n ↔
      ∃ value consumed, parse cursor = .ok value consumed ∧
        cursor + consumed - pos ≤ o.maxRequestBytes ∧
        parseElements o parse pos count (cursor + consumed) (items ++ [value]) = .ok v n := by
  rw [parseElements]
  cases parse cursor with
  | ok value consumed =>
    by_cases hlong : cursor + consumed - pos > o.maxRequestBytes
    · have hnot : ¬ cursor + consumed ≤ o.maxRequestBytes + pos := by omega
      simp [hlong, hnot]
    · have hle : cursor + consumed ≤ o.maxRequestBytes + pos := by omega
      simp [hlong, hle]
  | needMore => simp
  | error message => simp

/-- Texts that are parsed one by one are parsed one after another. -/
theorem parseElements_texts {α : Type} {o : ParserOptions} {buffer rest : Bytes} {room pos : ℕ}
    (text : α → Bytes) (value : α → Value) (args : List α) (cursor : ℕ) (items : List Value)
    (hd : buffer.drop cursor = args.flatMap text ++ rest)
    (hparse : ∀ a ∈ args, ∀ start rest', buffer.drop start = text a ++ rest' →
      start + (text a).length ≤ o.maxRequestBytes →
      parseAt o buffer room start = .ok (value a) (text a).length)
    (hreq : cursor + (args.flatMap text).length ≤ o.maxRequestBytes) :
    parseElements o (parseAt o buffer room) pos args.length cursor items
      = .ok (.array (items ++ args.map value)) (cursor + (args.flatMap text).length - pos) := by
  induction args generalizing cursor items with
  | nil => simp [parseElements]
  | cons a args ih =>
    simp only [List.flatMap_cons, List.length_append] at hreq
    have hd' : buffer.drop cursor = text a ++ (args.flatMap text ++ rest) := by
      rw [hd, List.flatMap_cons, List.append_assoc]
    have ha := hparse a (by simp) cursor _ hd' (by omega)
    simp only [List.length_cons, parseElements, ha]
    rw [if_neg (by omega), ih _ _ (drop_add_of_drop_eq hd') (fun x hx => hparse x (by simp [hx]))
      (by omega)]
    simp only [List.map_cons, List.flatMap_cons, List.length_append, List.append_assoc,
      List.singleton_append]
    congr 1
    omega

/-- The elements of a record are read back, one after the other. -/
theorem parseElements_fragments {o : ParserOptions} {buffer rest : Bytes} {room pos : ℕ}
    (args : List Bytes) (cursor : ℕ) (items : List Value)
    (hd : buffer.drop cursor = args.flatMap bulkStringFragment ++ rest)
    (hbulk : ∀ a ∈ args, a.length ≤ o.maxBulkBytes)
    (hreq : cursor + (args.flatMap bulkStringFragment).length ≤ o.maxRequestBytes)
    (hrep : ∀ a ∈ args, a.length ≤ maxSize) :
    parseElements o (parseAt o buffer (room + 1)) pos args.length cursor items
      = .ok (.array (items ++ args.map .bulkString))
          (cursor + (args.flatMap bulkStringFragment).length - pos) :=
  parseElements_texts bulkStringFragment .bulkString args cursor items hd
    (fun a ha _ _ hstart hle => parseAt_fragment room hstart (hbulk a ha) hle (hrep a ha)) hreq

/-- Of elements that are cut, more is needed. -/
theorem parseElements_cut {o : ParserOptions} {buffer : Bytes} {pos : ℕ} (room : ℕ)
    (args : List Bytes) (cursor : ℕ) (items : List Value) {t : Bytes}
    (hd : buffer.drop cursor = t) (ht : t <+: args.flatMap bulkStringFragment)
    (hlt : t.length < (args.flatMap bulkStringFragment).length)
    (hbulk : ∀ a ∈ args, a.length ≤ o.maxBulkBytes)
    (hreq : cursor + (args.flatMap bulkStringFragment).length ≤ o.maxRequestBytes)
    (hrep : ∀ a ∈ args, a.length ≤ maxSize) :
    parseElements o (parseAt o buffer (room + 1)) pos args.length cursor items = .needMore := by
  induction args generalizing cursor items t with
  | nil => simp at hlt
  | cons a args ih =>
    simp only [List.flatMap_cons, List.length_append] at hreq hlt
    rw [List.flatMap_cons] at ht
    rcases prefix_append_cases ht with ⟨hp, hpl⟩ | ⟨u, rfl, hu⟩
    · have ha := parseAt_fragment_cut room hd hp hpl (hbulk a (by simp)) (by omega)
        (hrep a (by simp))
      simp only [List.length_cons, parseElements, ha]
    · have ha := parseAt_fragment room hd (hbulk a (by simp)) (by omega)
        (hrep a (by simp))
      simp only [List.length_append] at hlt
      simp only [List.length_cons, parseElements, ha]
      rw [if_neg (by omega)]
      exact ih _ _ (drop_add_of_drop_eq hd) hu (by omega) (fun x hx => hbulk x (by simp [hx]))
        (by omega) (fun x hx => hrep x (by simp [hx]))

/-! ## Commands -/

/-- A count that ends at a CRLF is read in one way. -/
theorem print_crlf_inj {n n' : ℕ} {s s' : Bytes}
    (h : print n ++ (crlf ++ s) = print n' ++ (crlf ++ s')) : n = n' ∧ s = s' := by
  have hend : ∀ (t : Bytes) (b : UInt8), (crlf ++ t).head? = some b → isDigit b = false := by
    rintro t b ⟨⟩
    decide
  have hspan := congrArg (List.span isDigit) h
  rw [span_print n (hend s), span_print n' (hend s')] at hspan
  obtain ⟨hprint, hrest⟩ := Prod.mk.inj hspan
  exact ⟨by rw [← read_print n, hprint, read_print], List.append_cancel_left hrest⟩

/-- A bulk string is read in one way, whatever follows. -/
theorem bulkStringFragment_inj {v v' s s' : Bytes}
    (h : bulkStringFragment v ++ s = bulkStringFragment v' ++ s') : v = v' ∧ s = s' := by
  simp only [bulkStringFragment, List.cons_append, List.append_assoc, List.cons.injEq,
    true_and] at h
  obtain ⟨hlen, hrest⟩ := print_crlf_inj h
  obtain ⟨hv, hcrlf⟩ := List.append_inj hrest hlen
  exact ⟨hv, List.append_cancel_left hcrlf⟩

/-- So many bulk strings are read in one way. -/
theorem bulkStringFragments_inj {args args' : List Bytes} {s s' : Bytes}
    (hlen : args.length = args'.length)
    (h : args.flatMap bulkStringFragment ++ s = args'.flatMap bulkStringFragment ++ s') :
    args = args' ∧ s = s' := by
  induction args generalizing args' with
  | nil =>
    obtain rfl := List.length_eq_zero_iff.mp hlen.symm
    exact ⟨rfl, h⟩
  | cons v args ih =>
    obtain ⟨v', args', rfl⟩ := List.exists_cons_of_length_eq_add_one hlen.symm
    rw [List.flatMap_cons, List.flatMap_cons, List.append_assoc, List.append_assoc] at h
    obtain ⟨rfl, hrest⟩ := bulkStringFragment_inj h
    obtain ⟨rfl, hs⟩ := ih (Nat.succ.inj hlen) hrest
    exact ⟨rfl, hs⟩

/-- A record is its header and its arguments. -/
theorem encodeCommand_eq (args : List Bytes) :
    encodeCommand args
      = 42 :: (print args.length ++ crlf ++ args.flatMap bulkStringFragment) := by
  simp [encodeCommand, arrayHeader]

/-- A record is read in one way, whatever follows. -/
theorem encodeCommand_inj {args args' : List Bytes} {s s' : Bytes}
    (h : encodeCommand args ++ s = encodeCommand args' ++ s') : args = args' ∧ s = s' := by
  simp only [encodeCommand_eq, List.cons_append, List.append_assoc, List.cons.injEq, true_and] at h
  obtain ⟨hlen, hrest⟩ := print_crlf_inj h
  exact bulkStringFragments_inj hlen hrest

/-- **A log is read in one way.** -/
theorem flatMap_encodeCommand_inj {records records' : List (List Bytes)}
    (h : records.flatMap encodeCommand = records'.flatMap encodeCommand) : records = records' := by
  have hne : ∀ args s, encodeCommand args ++ s ≠ [] := fun args s => by simp [encodeCommand_eq]
  induction records generalizing records' with
  | nil =>
    cases records' with
    | nil => rfl
    | cons args' records' => exact absurd h.symm (hne args' _)
  | cons args records ih =>
    cases records' with
    | nil => exact absurd h (hne args _)
    | cons args' records' =>
      obtain ⟨rfl, hrest⟩ := encodeCommand_inj h
      rw [ih hrest]

/-- The length of a record. -/
theorem length_encodeCommand (args : List Bytes) :
    (encodeCommand args).length
      = (print args.length).length + 3 + (args.flatMap bulkStringFragment).length := by
  simp only [encodeCommand_eq, List.length_cons, List.length_append, crlf, List.length_nil]
  omega

/-- No argument is longer than the command, and there are not more of them than bytes. -/
theorem length_le_of_mem_encodeCommand {arg : Bytes} {record : List Bytes} (h : arg ∈ record) :
    arg.length ≤ (encodeCommand record).length := by
  obtain ⟨before, after, rfl⟩ := List.append_of_mem h
  simp only [encodeCommand, List.flatMap_append, List.flatMap_cons, List.length_append,
    length_bulkStringFragment]
  omega

/-- There are no more arguments than bytes. -/
theorem length_le_length_encodeCommand (args : List Bytes) :
    args.length ≤ (encodeCommand args).length := by
  have hbody : args.length ≤ (args.flatMap bulkStringFragment).length := by
    induction args with
    | nil => simp
    | cons a args ih =>
      rw [List.flatMap_cons, List.length_append, length_bulkStringFragment, List.length_cons]
      omega
  rw [length_encodeCommand]
  omega

/-- A count line within the limits is accepted. -/
theorem parseArray_print {o : ParserOptions} {n : ℕ} (hel : n ≤ o.maxArrayElements)
    (hlen : n ≤ maxSize) (parse : ℕ → InternalResult) (pos afterLine : ℕ) :
    parseArray o parse pos afterLine (print n) = parseElements o parse pos n afterLine [] := by
  rw [parseArray, parseNumberLine_print hlen]
  simp only [maxSize] at hlen
  show (if (n : ℤ) < -1 then _ else _) = _
  rw [if_neg (by omega), if_neg (by omega), if_neg (by rw [Int.toNat_natCast, uint64Max]; omega),
    Int.toNat_natCast]

/-- An array of bulk strings is a request. -/
theorem commandArgs_bulkStrings (args : List Bytes) :
    commandArgs (args.map .bulkString) = .ok args := by
  induction args with
  | nil => rfl
  | cons a args ih =>
    simp only [List.map_cons, commandArgs, ih]
    rfl

/-- A buffer that starts with a RESP prefix goes to `parse_at`. -/
theorem parseFront_of_resp {p : Parser} {ch : UInt8} {t : Bytes} (hb : p.buffer = ch :: t)
    (hpre : isRespPrefix ch = true) :
    p.parseFront = parseAt p.options p.buffer (kMaxDepth + 1) 0 := by
  rw [Parser.parseFront]
  split
  · next h => simp [hb] at h
  · next ch' t' h =>
    obtain ⟨rfl, -⟩ := List.cons.inj (hb.symm.trans h)
    rw [if_pos hpre]

/-- A fresh parser takes what is within the request limit. -/
theorem append_fresh {o : ParserOptions} {bytes : Bytes} (h : bytes.length ≤ o.maxRequestBytes) :
    ({ options := o } : Parser).append bytes = (.ok, ⟨o, bytes⟩) := by
  rw [Parser.append, if_neg (by simp only [List.length_nil]; omega)]
  rfl

/-- **A whole command.** An encoded command within the limits is read off the front of the buffer,
whatever bytes follow it. -/
theorem nextCommand_encode {p : Parser} {args : List Bytes} {rest : Bytes}
    (h : WithinLimits p.options args) (hb : p.buffer = encodeCommand args ++ rest) :
    p.nextCommand = (.ok ⟨args, encodeCommand args⟩, { p with buffer := rest }) := by
  have hlen := length_encodeCommand args
  have hreq := h.request
  have hhead : p.buffer
      = 42 :: (print args.length ++ crlf ++ (args.flatMap bulkStringFragment ++ rest)) := by
    rw [hb, encodeCommand_eq]
    simp [List.append_assoc]
  have hd0 : p.buffer.drop 0
      = (42 :: (print args.length ++ crlf)) ++ (args.flatMap bulkStringFragment ++ rest) := by
    simpa using hhead
  have hbody : p.buffer.drop (0 + (print args.length).length + 3)
      = args.flatMap bulkStringFragment ++ rest := by
    rw [← drop_add_of_drop_eq hd0]
    congr 1
    simp [crlf]
  have hparse : parseAt p.options p.buffer (kMaxDepth + 1) 0
      = .ok (.array (args.map .bulkString)) (encodeCommand args).length := by
    rw [(parseAt_of_line (not_mem_print _) hd0).2 rfl, parseArray_print h.elements h.count_le,
      show kMaxDepth = 7 + 1 from rfl, parseElements_fragments args _ _ hbody h.bulk (by omega)
        h.length_le]
    simp only [List.nil_append]
    congr 1
    omega
  have hvalue : p.nextValue
      = (.ok (.array (args.map .bulkString)) (encodeCommand args), { p with buffer := rest }) := by
    rw [Parser.nextValue, parseFront_of_resp hhead rfl, hparse]
    simp only
    rw [if_neg (by omega), hb, List.take_left, Parser.discard, hb, List.drop_left]
  simp only [Parser.nextCommand, hvalue, commandArgs_bulkStrings]

/-- **Decoding undoes encoding**, framed by any following bytes: a fresh parser that is given an
encoded command and more bytes returns the command and keeps the others. The last hypothesis is a
fact about `std::string`, which is not longer than `max_size()`. -/
theorem fresh_parser_decodes {o : ParserOptions} {args : List Bytes} {rest : Bytes}
    (helements : args.length ≤ o.maxArrayElements) (hbulk : ∀ a ∈ args, a.length ≤ o.maxBulkBytes)
    (htotal : (encodeCommand args ++ rest).length ≤ o.maxRequestBytes)
    (hsize : (encodeCommand args ++ rest).length ≤ maxSize) :
    ∃ p, ({ options := o } : Parser).append (encodeCommand args ++ rest) = (.ok, p) ∧
      p.nextCommand = (.ok ⟨args, encodeCommand args⟩, ⟨o, rest⟩) := by
  rw [List.length_append] at hsize
  have hlimits : WithinLimits o args := by
    refine ⟨helements, hbulk, ?_, ?_, fun a ha => ?_⟩
    · rw [List.length_append] at htotal
      omega
    · have hcount := length_le_length_encodeCommand args
      omega
    · have hlength := length_le_of_mem_encodeCommand ha
      omega
  exact ⟨_, append_fresh htotal, nextCommand_encode hlimits rfl⟩

/-- A command whose argument looks like the protocol itself. -/
theorem fresh_parser_decodes_crlf :
    ∃ p, ({ options := {} } : Parser).append (encodeCommand [ascii "ECHO", ascii "\r\n$1"] ++ ascii "*")
        = (.ok, p) ∧
      p.nextCommand = (.ok ⟨[ascii "ECHO", ascii "\r\n$1"], encodeCommand [ascii "ECHO", ascii "\r\n$1"]⟩,
        ⟨{}, ascii "*"⟩) :=
  fresh_parser_decodes (by decide) (by decide) (by decide +kernel) (by decide +kernel)

/-- **A cut command.** On a proper prefix of an encoded command the parser asks for more. -/
theorem nextCommand_cut {p : Parser} {args : List Bytes} (h : WithinLimits p.options args)
    (ht : p.buffer <+: encodeCommand args) (hlt : p.buffer.length < (encodeCommand args).length) :
    p.nextCommand = (.needMore, p) := by
  have hlen := length_encodeCommand args
  have hreq := h.request
  have hvalue : p.nextValue = (.needMore, p) := by
    cases hpb : p.buffer with
    | nil => simp only [Parser.nextValue, Parser.parseFront, hpb]
    | cons ch t =>
      rw [hpb] at ht hlt
      rw [encodeCommand_eq, List.cons_prefix_cons] at ht
      obtain ⟨rfl, ht⟩ := ht
      have hd0 : p.buffer.drop 0 = 42 :: t := by rw [List.drop_zero, hpb]
      have hparse : parseAt p.options p.buffer (kMaxDepth + 1) 0 = .needMore := by
        rcases prefix_append_cases ht with ⟨hp, hpl⟩ | ⟨u, rfl, hu⟩
        · refine parseAt_cut_line hd0 (crlfIndex_eq_none_of_cut (not_mem_print _) hp hpl) ?_
          simp only [hpb, List.length_cons] at hlt ⊢
          omega
        · rw [(parseAt_of_line (not_mem_print _) hd0).2 rfl, parseArray_print h.elements h.count_le]
          have hdu : p.buffer.drop (0 + (print args.length).length + 3) = u := by
            have hd : p.buffer.drop 0 = (42 :: (print args.length ++ crlf)) ++ u := by
              simpa using hd0
            rw [← drop_add_of_drop_eq hd]
            congr 1
            simp [crlf]
          refine parseElements_cut 7 args _ _ hdu hu ?_ h.bulk (by omega)
            h.length_le
          simp only [List.length_cons, List.length_append, crlf, List.length_nil] at hlt
          omega
      rw [Parser.nextValue, parseFront_of_resp hpb rfl, hparse]
  simp only [Parser.nextCommand, hvalue]

/-! ## Progress

Every value the parser accepts takes at least two bytes off the buffer, so a loop over `nextCommand`
ends. -/

/-- A line ends behind its start. -/
theorem le_of_findCrlf {buffer : Bytes} {pos eol : ℕ} (h : findCrlf buffer pos = some eol) :
    pos ≤ eol := by
  rw [findCrlf, Option.map_eq_some_iff] at h
  obtain ⟨i, -, rfl⟩ := h
  omega

/-- What the `$` branch has accepted. -/
theorem parseBulk_ok_cases {o : ParserOptions} {buffer line : Bytes} {pos afterLine n : ℕ}
    {v : Value} (h : parseBulk o buffer pos afterLine line = .ok v n) :
    (parseNumberLine line = some (-1) ∧ v = .nullBulk ∧ n = afterLine - pos) ∨
    ∃ len : ℕ, parseNumberLine line = some (len : ℤ) ∧ len ≤ o.maxBulkBytes ∧
      afterLine + len + 2 ≤ buffer.length ∧ buffer[afterLine + len]? = some 13 ∧
      buffer[afterLine + len + 1]? = some 10 ∧ v = .bulkString ((buffer.drop afterLine).take len) ∧
      n = afterLine + len + 2 - pos := by
  rw [parseBulk] at h
  split at h
  · cases h
  next length hline =>
  simp only at h
  split_ifs at h with hneg hnull hbulk hreq hmore hcrlf
  · cases h
    exact .inl ⟨hnull ▸ hline, rfl, rfl⟩
  · cases h
    obtain ⟨len, rfl⟩ := Int.eq_ofNat_of_zero_le (by omega : 0 ≤ length)
    simp only [Int.toNat_natCast, not_or, not_not] at hbulk hmore hcrlf ⊢
    exact .inr ⟨len, hline, by omega, by omega, hcrlf.1, hcrlf.2, rfl, rfl⟩

/-- What the `*` branch has accepted. -/
theorem parseArray_ok_cases {o : ParserOptions} {parse : ℕ → InternalResult} {line : Bytes}
    {pos afterLine n : ℕ} {v : Value} (h : parseArray o parse pos afterLine line = .ok v n) :
    (parseNumberLine line = some (-1) ∧ v = .nullArray ∧ n = afterLine - pos) ∨
    ∃ count : ℕ, parseNumberLine line = some (count : ℤ) ∧ count ≤ o.maxArrayElements ∧
      parseElements o parse pos count afterLine [] = .ok v n := by
  rw [parseArray] at h
  split at h
  · cases h
  next count hline =>
  split_ifs at h with hneg hnull hcount
  · cases h
    exact .inl ⟨hnull ▸ hline, rfl, rfl⟩
  · obtain ⟨count, rfl⟩ := Int.eq_ofNat_of_zero_le (by omega : 0 ≤ count)
    simp only [Int.toNat_natCast] at hcount h
    exact .inr ⟨count, hline, by omega, h⟩

/-- What `parse_at` has accepted: a line, and for two of the prefixes what is behind it. -/
theorem parseAt_ok_cases {o : ParserOptions} {buffer : Bytes} {room pos n : ℕ} {v : Value}
    (h : parseAt o buffer room pos = .ok v n) :
    ∃ below ch eol line, room = below + 1 ∧ buffer[pos]? = some ch ∧
      findCrlf buffer (pos + 1) = some eol ∧
      line = (buffer.drop (pos + 1)).take (eol - (pos + 1)) ∧
      (((ch = 43 ∧ v = .simpleString line ∨ ch = 45 ∧ v = .error line ∨
          ch = 58 ∧ ∃ number, v = .integer number) ∧ n = eol + 2 - pos) ∨
        ch = 36 ∧ parseBulk o buffer pos (eol + 2) line = .ok v n ∨
        ch = 42 ∧ parseArray o (parseAt o buffer below) pos (eol + 2) line = .ok v n) := by
  cases room with
  | zero => cases h
  | succ room =>
    rw [parseAt] at h
    split at h
    · cases h
    next ch hch =>
    split at h
    · split_ifs at h
    next eol heol =>
    refine ⟨room, ch, eol, _, rfl, hch, heol, rfl, ?_⟩
    simp only at h
    split_ifs at h with hplus hminus hcolon hdollar hstar
    · cases h
      exact .inl ⟨.inl ⟨hplus, rfl⟩, rfl⟩
    · cases h
      exact .inl ⟨.inr (.inl ⟨hminus, rfl⟩), rfl⟩
    · split at h
      · cases h
      · cases h
        exact .inl ⟨.inr (.inr ⟨hcolon, _, rfl⟩), rfl⟩
    · exact .inr (.inl ⟨hdollar, h⟩)
    · exact .inr (.inr ⟨hstar, h⟩)

/-- A bulk string takes at least its header. -/
theorem le_consumed_parseBulk {o : ParserOptions} {buffer line : Bytes} {pos afterLine n : ℕ}
    {v : Value} (h : parseBulk o buffer pos afterLine line = .ok v n) : afterLine - pos ≤ n := by
  rcases parseBulk_ok_cases h with ⟨-, -, rfl⟩ | ⟨len, -, -, -, -, -, -, rfl⟩
  · exact le_rfl
  · omega

/-- The elements take no byte back. -/
theorem le_consumed_parseElements {o : ParserOptions} {parse : ℕ → InternalResult} {pos : ℕ}
    (count cursor : ℕ) (items : List Value) {v : Value} {n : ℕ}
    (h : parseElements o parse pos count cursor items = .ok v n) : cursor - pos ≤ n := by
  induction count generalizing cursor items with
  | zero =>
    simp only [parseElements, InternalResult.ok.injEq] at h
    omega
  | succ count ih =>
    obtain ⟨value, consumed, -, -, hrest⟩ := parseElements_succ_iff.mp h
    have hrec := ih _ _ hrest
    omega

/-- An array takes at least its header. -/
theorem le_consumed_parseArray {o : ParserOptions} {parse : ℕ → InternalResult} {line : Bytes}
    {pos afterLine n : ℕ} {v : Value} (h : parseArray o parse pos afterLine line = .ok v n) :
    afterLine - pos ≤ n := by
  rcases parseArray_ok_cases h with ⟨-, -, rfl⟩ | ⟨count, -, -, helements⟩
  · exact le_rfl
  · exact le_consumed_parseElements _ _ _ helements

/-- A value takes at least a CRLF. -/
theorem two_le_consumed_parseAt {o : ParserOptions} {buffer : Bytes} {room pos n : ℕ} {v : Value}
    (h : parseAt o buffer room pos = .ok v n) : 2 ≤ n := by
  obtain ⟨below, ch, eol, line, -, -, heol, -, ⟨-, rfl⟩ | ⟨-, hbulk⟩ | ⟨-, harray⟩⟩ :=
    parseAt_ok_cases h
  all_goals have hle := le_of_findCrlf heol
  · omega
  · have hb := le_consumed_parseBulk hbulk
    omega
  · have ha := le_consumed_parseArray harray
    omega

/-- A line of words takes at least its CRLF. -/
theorem two_le_consumed_parseInline {o : ParserOptions} {buffer : Bytes} {pos n : ℕ} {v : Value}
    (h : parseInline o buffer pos = .ok v n) : 2 ≤ n := by
  simp only [parseInline] at h
  split at h
  · split_ifs at h
  · next eol heol =>
    have hle := le_of_findCrlf heol
    split_ifs at h
    cases h
    omega

/-- An accepted value leaves a shorter buffer. -/
theorem length_buffer_lt_of_nextValue {p p' : Parser} {v : Value} {raw : Bytes}
    (h : p.nextValue = (.ok v raw, p')) : p'.buffer.length < p.buffer.length := by
  rw [Parser.nextValue] at h
  split at h
  · cases h
  · cases h
  · next value consumed hparsed =>
    rw [Parser.parseFront] at hparsed
    split at hparsed
    · cases hparsed
    · next ch t hb =>
      have hpos : 0 < p.buffer.length := by simp [hb]
      have hn : 2 ≤ consumed := by
        split_ifs at hparsed
        · exact two_le_consumed_parseAt hparsed
        · exact two_le_consumed_parseInline hparsed
      split_ifs at h
      · cases h
      · have hp' : p.discard consumed = p' := congrArg Prod.snd h
        rw [← hp', Parser.discard, List.length_drop]
        omega

/-- A request takes bytes off the buffer. -/
theorem length_buffer_lt_of_nextCommand {p p' : Parser} {c : Command}
    (h : p.nextCommand = (.ok c, p')) : p'.buffer.length < p.buffer.length := by
  rw [Parser.nextCommand] at h
  split at h
  · cases h
  · cases h
  · next items raw p₁ hvalue =>
    split at h
    · cases h
    · cases h
      exact length_buffer_lt_of_nextValue hvalue
  · cases h

end VeloxDb.Resp
