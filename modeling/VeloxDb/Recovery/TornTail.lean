import VeloxDb.Persistence.Limits
import VeloxDb.Persistence.Outcomes
import VeloxDb.Server

/-!
# A torn record in the middle of a log

A crash can leave a first part of a record at the end of the log. Replay ignores it, but `Aof::open`
does not cut it off, so the records of the next session are written right behind it, and the next
replay reads the two together.

Where the torn record ends inside a line, the line of the next record makes that line no number;
where it ends between two bulk strings, an array stands in the place of a bulk string. Where it ends
inside the payload of a bulk string, the payload is filled up with what follows, up to the CRLF that
the parser asks for. If none of the arguments that come next contains a CRLF, the only one it can
meet is that of the line with their number, and after that the arguments are taken for those of the
torn record: at least one of them is left over, and the parser does not accept it as a command
(`nextCommand_torn`).
-/

namespace VeloxDb.Resp

open Decimal Util

/-! ## Lines that run into the next record -/

/-- A line without its CRLF runs on into the bytes behind it. -/
theorem crlfIndex_append_of_none {a t : Bytes} {b : UInt8} (ha : crlfIndex a = none) (hb : b ≠ 10) :
    crlfIndex (a ++ b :: t) = (crlfIndex (b :: t)).map (a.length + ·) := by
  induction a with
  | nil => simp
  | cons c a ih =>
    -- a CR at the end of `a` is not followed by LF, and a CR before that would have been found
    have hcons : ∀ s : Bytes, ¬ (c = 13 ∧ ∃ s', s = 10 :: s') →
        crlfIndex (c :: s) = (crlfIndex s).map (· + 1) := by
      intro s hs
      rw [crlfIndex.eq_2 _ _ (by rintro s' rfl rfl; exact hs ⟨rfl, s', rfl⟩)]
    have hlf : ¬ (c = 13 ∧ ∃ s', a = 10 :: s') := by
      rintro ⟨rfl, s', rfl⟩
      simp [crlfIndex] at ha
    rw [hcons a hlf, Option.map_eq_none_iff] at ha
    have hlf' : ¬ (c = 13 ∧ ∃ s', a ++ b :: t = 10 :: s') := by
      rintro ⟨rfl, s', hs⟩
      cases a with
      | nil => exact hb (List.cons.inj hs).1
      | cons d a => exact hlf ⟨rfl, a, by rw [(List.cons.inj hs).1]⟩
    rw [List.cons_append, hcons _ hlf', ih ha, Option.map_map, List.length_cons]
    congr 1
    funext i
    simp only [Function.comp_apply]
    omega

theorem parseNumberLine_eq_none_of_star {line : Bytes} (h : (42 : UInt8) ∈ line) :
    parseNumberLine line = none := by
  rw [parseNumberLine]
  split_ifs
  · rfl
  · by_contra hsome
    obtain ⟨i, hi⟩ := Option.ne_none_iff_exists'.mp hsome
    obtain ⟨digits, -, hdigits, ⟨rfl, -, -⟩ | ⟨rfl, -, -⟩⟩ := wholeI64_cases hi
    · rcases List.mem_cons.mp h with h | h
      · cases h
      · cases hdigits 42 h
    · cases hdigits 42 h

variable {o : ParserOptions} {buffer tail : Bytes} {room pos : ℕ}

/-- A number that runs into the next record is not a number. -/
theorem parseAt_torn_line {ch : UInt8} {u t : Bytes} (hch : ch = 36 ∨ ch = 42)
    (hd : buffer.drop pos = ch :: (u ++ 42 :: t)) (hu : crlfIndex u = none) {v : Value} {n : ℕ} :
    parseAt o buffer (room + 1) pos ≠ .ok v n := by
  have hnext : buffer.drop (pos + 1) = u ++ 42 :: t := drop_add_of_drop_eq (a := [ch]) hd
  have hindex := crlfIndex_append_of_none (t := t) hu (show (42 : UInt8) ≠ 10 by decide)
  have hstar : crlfIndex (42 :: t) = (crlfIndex t).map (· + 1) :=
    crlfIndex.eq_2 _ _ (by rintro t' ⟨⟩)
  rw [hstar, Option.map_map] at hindex
  simp only [parseAt, getElem?_of_drop_eq hd, findCrlf, hnext, hindex]
  cases crlfIndex t with
  | none =>
    simp only [Option.map_none]
    split_ifs <;> simp
  | some i =>
    have hline : parseNumberLine ((u ++ 42 :: t).take (u.length + (i + 1))) = none := by
      apply parseNumberLine_eq_none_of_star
      rw [List.take_length_add_append, List.take_succ_cons]
      simp
    simp only [Option.map_some, Function.comp_apply, Nat.add_sub_cancel_left]
    rcases hch with rfl | rfl
    · simp [parseBulk, hline]
    · simp [parseArray, hline]

/-! ## Payloads that run into the next record -/

/-- The length of the header of an array. -/
theorem length_arrayHeader (M : ℕ) : (arrayHeader M).length = (print M).length + 3 := by
  simp [arrayHeader, crlf]

/-- In the line with the number of arguments, the CR is at the end. -/
theorem eq_of_getElem?_arrayHeader {M k : ℕ} (hk : k < (arrayHeader M).length)
    (h : (arrayHeader M ++ tail)[k]? = some 13) : k + 2 = (arrayHeader M).length := by
  rw [List.getElem?_append_left hk] at h
  rw [length_arrayHeader] at hk ⊢
  cases k with
  | zero => cases h
  | succ k =>
    rw [arrayHeader, List.getElem?_cons_succ] at h
    by_cases hlt : k < (print M).length
    · rw [List.getElem?_append_left hlt] at h
      exact absurd (List.mem_of_getElem? h) (not_mem_print M)
    · rw [List.getElem?_append_right (by omega)] at h
      by_contra hne
      rw [show k - (print M).length = 1 by omega] at h
      cases h

theorem crlf_infix_arrayHeader (M : ℕ) : crlf <:+: arrayHeader M :=
  ⟨42 :: print M, [], by simp [arrayHeader]⟩

/-- A payload that is filled up with the next record: it contains a CRLF, or it ends with the number
of arguments of that record. -/
theorem parseBulk_torn {q v : Bytes} {M afterLine : ℕ}
    (hd : buffer.drop afterLine = q ++ (arrayHeader M ++ tail)) (hlt : q.length < v.length + 2)
    (hrep : v.length ≤ maxSize) (hpos : pos ≤ afterLine) {value : Value} {n : ℕ}
    (h : parseBulk o buffer pos afterLine (print v.length) = .ok value n) :
    ∃ text, value = .bulkString text ∧ (crlf <:+: text ∨ buffer.drop (pos + n) = tail) := by
  rw [parseBulk, parseNumberLine_print hrep] at h
  simp only [Int.toNat_natCast] at h
  rw [if_neg (by omega), if_neg (by omega)] at h
  split_ifs at h with h₁ h₂ h₃ h₄
  · push Not at h₄
    obtain ⟨hcr, hlf⟩ := h₄
    cases h
    refine ⟨_, rfl, ?_⟩
    have hget : ∀ i, buffer[afterLine + i]? = (q ++ (arrayHeader M ++ tail))[i]? := by
      intro i
      rw [← hd, List.getElem?_drop]
    rw [hget] at hcr
    rw [Nat.add_assoc, hget] at hlf
    -- behind the CR of the torn record there is no LF, so the payload ends in the next one
    have hle : q.length ≤ v.length := by
      by_contra hgt
      rw [List.getElem?_append_right (by omega), show v.length + 1 - q.length = 0 by omega] at hlf
      cases hlf
    obtain ⟨k, hk⟩ := Nat.exists_eq_add_of_le hle
    rw [hk, List.getElem?_append_right (by omega), Nat.add_sub_cancel_left] at hcr
    rcases Nat.lt_or_ge k (arrayHeader M).length with hnear | hfar
    · right
      have hend := eq_of_getElem?_arrayHeader hnear hcr
      have hsub : pos + (afterLine + v.length + 2 - pos)
          = afterLine + (q ++ arrayHeader M).length := by
        rw [List.length_append]
        omega
      rw [hsub, ← List.drop_drop, hd, ← List.append_assoc, List.drop_left]
    · left
      obtain ⟨j, rfl⟩ := Nat.exists_eq_add_of_le hfar
      rw [hd, hk, List.take_length_add_append, List.take_length_add_append]
      exact (crlf_infix_arrayHeader M).trans
        ((List.prefix_append _ _).isInfix.trans (List.suffix_append _ _).isInfix)

/-- The element loop returns the elements it had and as many as it was to read. -/
theorem items_of_parseElements {parse : ℕ → InternalResult} {count cursor n : ℕ} {items : List Value}
    {v : Value} (h : parseElements o parse pos count cursor items = .ok v n) :
    ∃ more, v = .array (items ++ more) ∧ more.length = count := by
  obtain ⟨read, hv, hlen, -⟩ :=
    @parseElements_ok o parse (fun _ _ => True) (fun _ _ _ _ => trivial) pos count cursor items v n h
  exact ⟨read.map Prod.fst, hv, by rw [List.length_map, hlen]⟩

/-- The value of an array. -/
def Value.IsArray : Value → Prop
  | .array _ | .nullArray => True
  | _ => False

/-- An array is parsed as one. -/
theorem isArray_of_parseArray {parse : ℕ → InternalResult} {afterLine n : ℕ} {line : Bytes} {v : Value}
    (h : parseArray o parse pos afterLine line = .ok v n) : v.IsArray := by
  rcases parseArray_ok_cases h with ⟨-, rfl, -⟩ | ⟨count, -, -, helements⟩
  · trivial
  · obtain ⟨more, rfl, -⟩ := items_of_parseElements helements
    trivial

/-- A torn bulk string, and the next record behind it. -/
theorem parseAt_torn {u v : Bytes} {M : ℕ} (hd : buffer.drop pos = u ++ (arrayHeader M ++ tail))
    (hu : u <+: bulkStringFragment v) (hlt : u.length < (bulkStringFragment v).length)
    (hrep : v.length ≤ maxSize) {value : Value} {n : ℕ}
    (h : parseAt o buffer (room + 1) pos = .ok value n) :
    value.IsArray ∨
      ∃ text, value = .bulkString text ∧ (crlf <:+: text ∨ buffer.drop (pos + n) = tail) := by
  cases u with
  | nil =>
    left
    have hd' : buffer.drop pos = 42 :: (print M ++ crlf ++ tail) := by
      rw [hd]
      simp [arrayHeader]
    rw [(parseAt_of_line (not_mem_print M) hd').2 rfl] at h
    exact isArray_of_parseArray h
  | cons ch u =>
    rw [bulkStringFragment, List.cons_prefix_cons, List.append_assoc] at hu
    obtain ⟨rfl, hu⟩ := hu
    rcases prefix_append_cases hu with ⟨hp, hpl⟩ | ⟨q, rfl, hq⟩
    · exact absurd h (parseAt_torn_line (.inl rfl) hd
        (crlfIndex_eq_none_of_cut (not_mem_print _) hp hpl))
    · right
      have hd' : buffer.drop pos = 36 :: (print v.length ++ crlf ++ (q ++ (arrayHeader M ++ tail))) := by
        rw [hd]
        simp
      have hpay : buffer.drop (pos + (print v.length).length + 3) = q ++ (arrayHeader M ++ tail) := by
        have hdrop := drop_add_of_drop_eq (a := 36 :: (print v.length ++ crlf))
          (b := q ++ (arrayHeader M ++ tail)) (by simpa using hd')
        rw [← hdrop]
        congr 1
        simp [crlf, Nat.add_assoc]
      rw [(parseAt_of_line (not_mem_print _) hd').1 rfl] at h
      refine parseBulk_torn hpay ?_ hrep (by omega) h
      rw [length_bulkStringFragment] at hlt
      simp only [List.length_cons, List.length_append, crlf, List.length_nil] at hlt
      omega

/-! ## The elements of a torn command -/

/-- An element that is accepted as an argument. -/
theorem commandArgs_cons_cases {item : Value} {items : List Value} {args : List Bytes}
    (h : commandArgs (item :: items) = .ok args) :
    ∃ arg rest, args = arg :: rest ∧ commandArgs items = .ok rest ∧ ¬ item.IsArray ∧
      ∀ text, item = .bulkString text → arg = text := by
  simp only [commandArgs] at h
  cases hrest : commandArgs items with
  | error message => cases item <;> simp [hrest, bind, Except.bind] at h
  | ok rest =>
    cases item <;> simp [hrest, bind, Except.bind, pure, Except.pure] at h <;> subst h <;>
      exact ⟨_, rest, rfl, rfl, id, by simp⟩

/-- No argument of a request is an array. -/
theorem not_isArray_of_commandArgs {items : List Value} {args : List Bytes}
    (h : commandArgs items = .ok args) : ∀ item ∈ items, ¬ item.IsArray := by
  induction items generalizing args with
  | nil => simp
  | cons item items ih =>
    obtain ⟨arg, rest, -, hrest, harray, -⟩ := commandArgs_cons_cases h
    simpa using ⟨harray, ih hrest⟩

theorem prefix_of_commandArgs {before : List Bytes} {items : List Value} {args : List Bytes}
    (h : commandArgs (before.map .bulkString ++ items) = .ok args) : before <+: args := by
  induction before generalizing args with
  | nil => exact List.nil_prefix
  | cons b before ih =>
    obtain ⟨arg, rest, rfl, hrest, -, harg⟩ := commandArgs_cons_cases h
    rw [harg b rfl]
    exact (List.prefix_cons_inj b).mpr (ih hrest)

/-- A request has as many arguments as its array has values. -/
theorem length_of_commandArgs {items : List Value} {args : List Bytes}
    (h : commandArgs items = .ok args) : args.length = items.length := by
  induction items generalizing args with
  | nil =>
    cases h
    rfl
  | cons item items ih =>
    obtain ⟨arg, rest, rfl, hrest, -, -⟩ := commandArgs_cons_cases h
    simp [ih hrest]

/-- The elements of a torn command, when they make up a command with those of the next record. -/
theorem parseElements_torn {M : ℕ} (args : List Bytes) (cursor : ℕ) (items : List Value) {t : Bytes}
    (hd : buffer.drop cursor = t ++ (arrayHeader M ++ tail))
    (ht : t <+: args.flatMap bulkStringFragment)
    (hlt : t.length < (args.flatMap bulkStringFragment).length)
    (hbulk : ∀ a ∈ args, a.length ≤ o.maxBulkBytes)
    (hreq : cursor + (args.flatMap bulkStringFragment).length ≤ o.maxRequestBytes)
    (hrep : ∀ a ∈ args, a.length ≤ maxSize) {all : List Value} {n : ℕ} {l : List Bytes}
    (h : parseElements o (parseAt o buffer (room + 1)) pos args.length cursor items
      = .ok (.array all) n) (hl : commandArgs all = .ok l) :
    ∃ before text next left, before.length + 1 + left = args.length ∧
      parseElements o (parseAt o buffer (room + 1)) pos left next
        (items ++ (before ++ [text]).map .bulkString) = .ok (.array all) n ∧
      (crlf <:+: text ∨ buffer.drop next = tail) := by
  induction args generalizing cursor items t with
  | nil => simp at hlt
  | cons a args ih =>
    simp only [List.flatMap_cons, List.length_append] at hreq hlt
    rw [List.flatMap_cons] at ht
    simp only [List.length_cons] at h
    rcases prefix_append_cases ht with ⟨hp, hpl⟩ | ⟨u, rfl, hu⟩
    · -- this is the torn one
      obtain ⟨value, consumed, hparse, -, hrest⟩ := parseElements_succ_iff.mp h
      rcases parseAt_torn hd hp hpl (hrep a (by simp)) hparse with harray | ⟨text, rfl, htext⟩
      · obtain ⟨more, hall, -⟩ := items_of_parseElements hrest
        cases hall
        exact absurd harray (not_isArray_of_commandArgs hl value (by simp))
      · exact ⟨[], text, cursor + consumed, args.length, by simp; omega, hrest, htext⟩
    · have hd' : buffer.drop cursor = bulkStringFragment a ++ (u ++ (arrayHeader M ++ tail)) := by
        rw [hd, List.append_assoc]
      have ha := parseAt_fragment room hd' (hbulk a (by simp)) (by omega) (hrep a (by simp))
      simp only [parseElements, ha] at h
      split_ifs at h
      simp only [List.length_append] at hlt
      obtain ⟨before, text, next, left, hlen, hrest, htext⟩ := ih _ _ (drop_add_of_drop_eq hd') hu
        (by omega) (fun x hx => hbulk x (by simp [hx])) (by omega) (fun x hx => hrep x (by simp [hx])) h
      refine ⟨a :: before, text, next, left, by simp; omega, ?_, htext⟩
      simpa using hrest

/-- Behind `left` elements that were read from the arguments of a command stand its other arguments.
-/
theorem drop_of_parseElements {l : List Bytes} {rest : Bytes} {next left n : ℕ} {items : List Value}
    {v : Value} (hl : WithinLimits o l) (hreq : buffer.length ≤ o.maxRequestBytes)
    (hd : buffer.drop next = l.flatMap bulkStringFragment ++ rest) (hleft : left < l.length)
    (h : parseElements o (parseAt o buffer (room + 1)) pos left next items = .ok v n)
    (hpos : pos ≤ next) :
    buffer.drop (pos + n) = (l.drop left).flatMap bulkStringFragment ++ rest := by
  have hsplit : buffer.drop next = (l.take left).flatMap bulkStringFragment ++
      ((l.drop left).flatMap bulkStringFragment ++ rest) := by
    rw [hd, ← List.append_assoc, ← List.flatMap_append, List.take_append_drop]
  have hroom : next + ((l.take left).flatMap bulkStringFragment).length ≤ buffer.length := by
    obtain ⟨arg, more, hdrop⟩ : ∃ arg more, l.drop left = arg :: more :=
      List.exists_cons_of_ne_nil (by simp; omega)
    have hlen := congrArg List.length hsplit
    rw [hdrop, List.flatMap_cons] at hlen
    simp only [List.length_drop, List.length_append, length_bulkStringFragment] at hlen
    omega
  have hread : parseElements o (parseAt o buffer (room + 1)) pos (l.take left).length next items = _ :=
    parseElements_fragments (l.take left) next items hsplit
      (fun a ha => hl.bulk a (List.mem_of_mem_take ha)) (hroom.trans hreq)
      fun a ha => hl.length_le a (List.mem_of_mem_take ha)
  rw [List.length_take, Nat.min_eq_left hleft.le, h] at hread
  cases hread
  rw [← Nat.add_sub_assoc (by omega), Nat.add_sub_cancel_left]
  exact drop_add_of_drop_eq hsplit

/-! ## The torn command -/

/-- **A torn record with a command behind it**, none of whose arguments contains a CRLF. If the
parser takes the two for that very command, it leaves one of the arguments in the buffer. -/
theorem nextCommand_torn {p p' : Parser} {r l : List Bytes} {t rest raw : Bytes}
    (hb : p.buffer = t ++ (encodeCommand l ++ rest)) (hne : t ≠ []) (ht : t <+: encodeCommand r)
    (hlt : t.length < (encodeCommand r).length) (hr : WithinLimits p.options r)
    (hl : WithinLimits p.options l) (hreq : p.buffer.length ≤ p.options.maxRequestBytes)
    (hlines : ∀ arg ∈ l, ¬ crlf <:+: arg) (h : p.nextCommand = (.ok ⟨l, raw⟩, p')) :
    p'.options = p.options ∧ p'.buffer.length ≤ p.buffer.length ∧
      ∃ arg ∈ l, ∃ behind, p'.buffer = bulkStringFragment arg ++ behind := by
  obtain ⟨items, hvalue, hargs⟩ := nextValue_of_nextCommand h
  obtain ⟨n, hfront, -, -, rfl⟩ := parseFront_of_nextValue hvalue
  refine ⟨rfl, by simp [Parser.discard], ?_⟩
  obtain ⟨ch, t, rfl⟩ := List.exists_cons_of_ne_nil hne
  rw [encodeCommand_eq, List.cons_prefix_cons] at ht
  obtain ⟨rfl, ht⟩ := ht
  have hd : p.buffer.drop 0 = 42 :: (t ++ (encodeCommand l ++ rest)) := by
    rw [List.drop_zero, hb]
    simp
  rw [parseFront_of_resp hd rfl] at hfront
  rcases prefix_append_cases ht with ⟨hp, hpl⟩ | ⟨u, rfl, hu⟩
  · rw [encodeCommand_eq l] at hd
    exact absurd hfront (parseAt_torn_line (.inr rfl) hd
      (crlfIndex_eq_none_of_cut (not_mem_print _) hp hpl))
  · have hline : p.buffer.drop 0 = 42 :: (print r.length ++ crlf ++
        (u ++ (arrayHeader l.length ++ (l.flatMap bulkStringFragment ++ rest)))) := by
      rw [hd]
      simp [encodeCommand]
    have hbody : p.buffer.drop (0 + (print r.length).length + 3)
        = u ++ (arrayHeader l.length ++ (l.flatMap bulkStringFragment ++ rest)) := by
      rw [← drop_add_of_drop_eq (a := 42 :: (print r.length ++ crlf)) hline]
      congr 1
      simp [crlf]
    have hsize := length_encodeCommand r
    have hlimit := hr.request
    rw [(parseAt_of_line (not_mem_print _) hline).2 rfl, parseArray_print hr.elements hr.count_le]
      at hfront
    obtain ⟨before, text, next, left, hcount, hleft, htext⟩ := parseElements_torn r _ _ hbody hu
      (by simp only [List.length_cons, List.length_append, crlf, List.length_nil] at hlt; omega)
      hr.bulk (by omega) hr.length_le hfront hargs
    -- the elements are the arguments of `l`, so their number is that of the torn record
    obtain ⟨more, hitems, hmore⟩ := items_of_parseElements hleft
    cases hitems
    have hlen := length_of_commandArgs hargs
    simp only [List.nil_append, List.length_append, List.length_map, List.length_cons,
      List.length_nil, hmore] at hlen
    have htail : p.buffer.drop next = l.flatMap bulkStringFragment ++ rest := by
      refine htext.resolve_left (hlines text ?_)
      exact (prefix_of_commandArgs hargs).subset (by simp)
    have hbehind := drop_of_parseElements hl hreq htail (by omega) hleft (Nat.zero_le _)
    obtain ⟨arg, more, hdrop⟩ : ∃ arg more, l.drop left = arg :: more :=
      List.exists_cons_of_ne_nil (by simp; omega)
    rw [Nat.zero_add, hdrop, List.flatMap_cons, List.append_assoc] at hbehind
    exact ⟨arg, List.mem_of_mem_drop (hdrop ▸ List.mem_cons_self), _, hbehind⟩

/-- A bulk string is not a command. -/
theorem nextCommand_fragment {p : Parser} {v behind : Bytes} (hb : p.buffer = bulkStringFragment v ++ behind)
    (hbulk : v.length ≤ p.options.maxBulkBytes) (hrep : v.length ≤ maxSize)
    (hreq : p.buffer.length ≤ p.options.maxRequestBytes) :
    ∃ message p', p.nextCommand = (.error message, p') := by
  have hlen : (bulkStringFragment v).length ≤ p.options.maxRequestBytes := by
    rw [hb, List.length_append] at hreq
    omega
  have hparse := parseAt_fragment 8 ((List.drop_zero).trans hb) hbulk (by omega) hrep
  have hfront : p.parseFront = .ok (.bulkString v) (bulkStringFragment v).length := by
    rw [← hparse]
    exact parseFront_of_resp hb rfl
  refine ⟨ascii "expected RESP array command", p.discard (bulkStringFragment v).length, ?_⟩
  rw [Parser.nextCommand, Parser.nextValue, hfront]
  simp only
  rw [if_neg (by omega)]

end VeloxDb.Resp

namespace VeloxDb

open Resp FileProgram FileSystem

/-! ## Replaying the log again -/

/-- A callback that accepts every command and keeps it. -/
def recordCommand : ReplayCallback (List (List Bytes)) := fun seen args => (.ok, seen ++ [args])

/-- What was seen stays in front. -/
theorem prefix_drain_recordCommand (p : Parser) (seen : List (List Bytes)) (commands : ℕ) :
    seen <+: (drain recordCommand p seen commands).2.1 := by
  refine Loop.runUntil_induction (drainRound_lowers recordCommand) (I := fun t => seen <+: t.2.1)
    (Q := fun r => seen <+: r.2.1) ?_ ?_ (List.prefix_refl seen)
  · rintro ⟨p, seen', commands⟩ t hprefix hround
    simp only [drainRound] at hround
    split at hround
    · cases hround
    · cases hround
    · simp only [recordCommand, Status.isOk_ok, if_true] at hround
      cases hround
      exact hprefix.trans (List.prefix_append _ _)
  · rintro ⟨p, seen', commands⟩ r hprefix hround
    simp only [drainRound] at hround
    split at hround
    · cases hround
      exact hprefix
    · cases hround
      exact hprefix
    · simp only [recordCommand, Status.isOk_ok, if_true] at hround
      cases hround

/-- The loop cannot get past a torn record: it misses commands, or it ends with an error. -/
theorem drain_torn {p : Parser} {r l : List Bytes} {cmds seen : List (List Bytes)} {t : Bytes}
    (hb : p.buffer = t ++ (l :: cmds).flatMap encodeCommand) (hne : t ≠ []) (ht : t <+: encodeCommand r)
    (hlt : t.length < (encodeCommand r).length) (hr : WithinLimits p.options r)
    (hl : WithinLimits p.options l) (hreq : p.buffer.length ≤ p.options.maxRequestBytes)
    (hlines : ∀ arg ∈ l, ¬ crlf <:+: arg) {commands : ℕ}
    (hseen : (drain recordCommand p seen commands).2.1 = seen ++ l :: cmds) :
    ∃ message, (drain recordCommand p seen commands).1 = .error message := by
  have hmiss : seen ≠ seen ++ l :: cmds := by simp
  rcases hnext : p.nextCommand with ⟨command | _ | message, p'⟩
  · have hround : drain recordCommand p seen commands
        = drain recordCommand p' (seen ++ [command.args]) (commands + 1) := by
      rw [drain_eq, hnext]
      rfl
    rw [hround] at hseen ⊢
    -- what was read is the next command, and an argument of it is left over
    have hprefix := prefix_drain_recordCommand p' (seen ++ [command.args]) (commands + 1)
    rw [hseen, List.prefix_append_right_inj, List.cons_prefix_cons] at hprefix
    obtain ⟨args, raw⟩ := command
    obtain rfl : args = l := hprefix.1
    rw [List.flatMap_cons] at hb
    obtain ⟨hoptions, hlen, arg, harg, behind, hbehind⟩ :=
      nextCommand_torn hb hne ht hlt hr hl hreq hlines hnext
    obtain ⟨message, p'', hnext'⟩ := nextCommand_fragment hbehind (hoptions ▸ hl.bulk arg harg)
      (hl.length_le arg harg) (hoptions ▸ hlen.trans hreq)
    exact ⟨message, by rw [drain_eq, hnext']⟩
  · rw [drain_eq, hnext] at hseen
    exact absurd hseen hmiss
  · rw [drain_eq, hnext] at hseen
    exact absurd hseen hmiss

/-! ## The next session -/

/-- A session: replay the log, open it and append the records of the commands it serves. -/
def session (env : Env) (cmds : List (List Bytes)) :
    FileProgram FileName (ReplayStats × List (List Bytes) × Status) := do
  let fs ← files
  let (stats, seen) := replayFile env.config.persistence.aofPath (fs.read .aof) env.config.protocol
    recordCommand 0 []
  if !stats.status.isOk then return (stats, seen, stats.status)
  let (status, aof) ← Aof.openAof env {}
  if !status.isOk then return (stats, seen, status)
  discard (aof.appendAll env.config.persistence cmds)
  return (stats, seen, .ok)

/-- A replay of the log succeeds and calls the callback on these commands. -/
def ReplaysExactly (env : Env) (fs : FileSystem FileName) (cmds : List (List Bytes)) : Prop :=
  (replayFile env.config.persistence.aofPath (fs.read .aof) env.config.protocol recordCommand 0
      []).1.status.isOk = true ∧
    (replayFile env.config.persistence.aofPath (fs.read .aof) env.config.protocol recordCommand 0
      []).2 = cmds

instance (env : Env) (fs : FileSystem FileName) (cmds : List (List Bytes)) :
    Decidable (ReplaysExactly env fs cmds) := inferInstanceAs (Decidable (_ ∧ _))

/-- The records are seen in their order. -/
theorem foldl_recordCommand (cmds seen : List (List Bytes)) :
    cmds.foldl (fun seen args => (recordCommand seen args).2) seen = seen ++ cmds := by
  induction cmds generalizing seen with
  | nil => simp
  | cons args cmds ih =>
    rw [List.foldl_cons, ih]
    simp [recordCommand]

section Session

variable {env : Env} {L₁ L₂ : List (List Bytes)} {r : List Bytes} {t : Bytes}

/-- The replay of a log that starts with whole records: it goes on with what is behind them. -/
theorem replayFile_recordCommand (hsafe : pathIsSafe env.config.persistence.aofPath = true)
    (hlim : ∀ args ∈ L₁, WithinLimits (parserOptionsFromConfig env.config.protocol) args)
    (hsize : (L₁.flatMap encodeCommand ++ t).length ≤ env.config.protocol.maxRequestBytes)
    {stop : DrainStop} {seen : List (List Bytes)} {commands : ℕ}
    (hdrain : drain recordCommand ⟨parserOptionsFromConfig env.config.protocol, t⟩ L₁ L₁.length
      = (stop, seen, commands)) :
    ∃ stats, replayFile env.config.persistence.aofPath (some (L₁.flatMap encodeCommand ++ t))
        env.config.protocol recordCommand 0 [] = (stats, seen) ∧
      (∀ buffered, stop = .needMore buffered →
        stats = { commands, ignoredPartialTail := buffered != 0 }) ∧
      ∀ message, stop = .error message → stats.status.isOk = false := by
  rw [replayFile_eq hsafe (Nat.zero_le _) (by omega), drain_encode L₁ hlim List.drop_zero,
    feed_of_isOk fun _ _ => rfl]
  simp only [foldl_recordCommand, List.nil_append, Nat.zero_add, hdrain]
  cases stop with
  | needMore buffered =>
    refine ⟨_, rfl, ?_, (fun _ h => nomatch h)⟩
    rintro _ ⟨⟩
    rfl
  | error message => exact ⟨_, rfl, (fun _ h => nomatch h), fun _ _ => rfl⟩
  | refused status => exact ⟨_, rfl, (fun _ h => nomatch h), (fun _ h => nomatch h)⟩

/-- A log with a torn record at its end is replayed without it. -/
theorem replayFile_torn (hsafe : pathIsSafe env.config.persistence.aofPath = true)
    (hlim : ∀ args ∈ L₁, WithinLimits (parserOptionsFromConfig env.config.protocol) args)
    (hr : WithinLimits (parserOptionsFromConfig env.config.protocol) r) (hne : t ≠ [])
    (ht : t <+: encodeCommand r) (hlt : t.length < (encodeCommand r).length)
    (hsize : (L₁.flatMap encodeCommand ++ t).length ≤ env.config.protocol.maxRequestBytes) :
    replayFile env.config.persistence.aofPath (some (L₁.flatMap encodeCommand ++ t))
        env.config.protocol recordCommand 0 []
      = ({ commands := L₁.length, ignoredPartialTail := true }, L₁) := by
  have hcut : (⟨parserOptionsFromConfig env.config.protocol, t⟩ : Parser).nextCommand
      = (.needMore, ⟨parserOptionsFromConfig env.config.protocol, t⟩) := nextCommand_cut hr ht hlt
  obtain ⟨stats, hreplay, hstats, -⟩ :=
    replayFile_recordCommand hsafe hlim hsize (drain_of_needMore hcut L₁ L₁.length)
  rw [hreplay, hstats _ rfl]
  simp [Parser.bufferedBytes, hne]

variable (L₂) in
/-- What a session on a log with a torn record leaves behind. -/
theorem session_torn (hen : env.config.persistence.aofEnabled = true)
    (hsafe : pathIsSafe env.config.persistence.aofPath = true) {fs : FileSystem FileName}
    (hlog : fs.read .aof = some (L₁.flatMap encodeCommand ++ t))
    (hlim : ∀ args ∈ L₁, WithinLimits (parserOptionsFromConfig env.config.protocol) args)
    (hr : WithinLimits (parserOptionsFromConfig env.config.protocol) r) (hne : t ≠ [])
    (ht : t <+: encodeCommand r) (hlt : t.length < (encodeCommand r).length)
    (hsize : (L₁.flatMap encodeCommand ++ t).length ≤ env.config.protocol.maxRequestBytes) :
    ∃ fs', session env L₂ ⟨fs, []⟩
        = .ok ({ commands := L₁.length, ignoredPartialTail := true }, L₁, .ok) ⟨fs', []⟩ ∧
      fs'.read .aof = some (L₁.flatMap encodeCommand ++ (t ++ L₂.flatMap encodeCommand)) := by
  have hspec : Spec (session env L₂) ⟨fs, []⟩ (fun result w' => w'.Calm ∧
      result = ({ commands := L₁.length, ignoredPartialTail := true }, L₁, .ok) ∧
      w'.fs.read .aof = some (L₁.flatMap encodeCommand ++ (t ++ L₂.flatMap encodeCommand)))
      fun _ => False := by
    rw [session, spec_bind, spec_files]
    simp only [hlog, replayFile_torn hsafe hlim hr hne ht hlt hsize, Status.isOk_ok, Bool.not_true,
      Bool.false_eq_true, if_false]
    rw [spec_bind]
    refine (Aof.spec_openAof {} hen).mono (fun opened w₁ h₁ => ?_) fun w₁ h₁ => h₁.2.1 rfl
    obtain ⟨hw₁, hopen⟩ := h₁.2.1 rfl
    obtain ⟨hok, hatt⟩ := hopen hsafe
    simp only [hok, Bool.not_true, Bool.false_eq_true, if_false]
    rw [spec_bind, spec_discard]
    refine (Aof.spec_appendAll hen L₂ hw₁ hatt).mono (fun r w₂ h₂ => ?_) fun _ h => h
    refine spec_pure.mpr ⟨h₂.1, rfl, ?_⟩
    simp [h₂.2.2.contents, hlog]
  obtain ⟨result, ⟨fs', plan⟩, hrun, rfl, rfl, hread⟩ := hspec.exists_ok
  exact ⟨fs', hrun, hread⟩

/-- **A torn record is not forgotten.** After a session on a log with a torn record at its end, a
second replay of the log succeeds with exactly the commands of both sessions if and only if the
session has appended nothing; the arguments of its first command are without CRLF. -/
theorem replays_behind_torn_iff (hen : env.config.persistence.aofEnabled = true)
    (hsafe : pathIsSafe env.config.persistence.aofPath = true) {fs : FileSystem FileName}
    (hlog : fs.read .aof = some (L₁.flatMap encodeCommand ++ t))
    (hlim : ∀ args ∈ L₁ ++ L₂, WithinLimits (parserOptionsFromConfig env.config.protocol) args)
    (hr : WithinLimits (parserOptionsFromConfig env.config.protocol) r) (hne : t ≠ [])
    (ht : t <+: encodeCommand r) (hlt : t.length < (encodeCommand r).length)
    (hsize : (L₁.flatMap encodeCommand ++ (t ++ L₂.flatMap encodeCommand)).length
      ≤ env.config.protocol.maxRequestBytes)
    (hlines : ∀ args ∈ L₂.head?, ∀ arg ∈ args, ¬ crlf <:+: arg) :
    ∃ fs', session env L₂ ⟨fs, []⟩
        = .ok ({ commands := L₁.length, ignoredPartialTail := true }, L₁, .ok) ⟨fs', []⟩ ∧
      (ReplaysExactly env fs' (L₁ ++ L₂) ↔ L₂ = []) := by
  have hlim₁ : ∀ args ∈ L₁, WithinLimits (parserOptionsFromConfig env.config.protocol) args :=
    fun args hargs => hlim args (List.mem_append_left _ hargs)
  have hsize₁ : (L₁.flatMap encodeCommand ++ t).length ≤ env.config.protocol.maxRequestBytes := by
    simp only [List.length_append] at hsize ⊢
    omega
  obtain ⟨fs', hrun, hread⟩ := session_torn L₂ hen hsafe hlog hlim₁ hr hne ht hlt hsize₁
  refine ⟨fs', hrun, ?_⟩
  rw [ReplaysExactly, hread]
  cases L₂ with
  | nil =>
    simp only [List.flatMap_nil, List.append_nil, iff_true]
    rw [replayFile_torn hsafe hlim₁ hr hne ht hlt hsize₁]
    exact ⟨rfl, rfl⟩
  | cons l cmds =>
    simp only [reduceCtorEq, iff_false]
    rintro ⟨hok, hseen⟩
    rcases hdrain : drain recordCommand ⟨parserOptionsFromConfig env.config.protocol,
      t ++ (l :: cmds).flatMap encodeCommand⟩ L₁ L₁.length with ⟨stop, seen, commands⟩
    obtain ⟨stats, hreplay, -, herror⟩ := replayFile_recordCommand hsafe hlim₁ hsize hdrain
    rw [hreplay] at hok hseen
    have hreq : (t ++ (l :: cmds).flatMap encodeCommand).length
        ≤ env.config.protocol.maxRequestBytes := by
      rw [List.length_append] at hsize
      omega
    obtain ⟨message, hstop⟩ := drain_torn rfl hne ht hlt hr (hlim l (by simp)) hreq (hlines l rfl)
      (by rw [hdrain]; exact hseen)
    rw [hdrain] at hstop
    rw [herror message hstop] at hok
    cases hok

end Session

/-- The log with one record and the bytes `t` behind it. -/
def tornFiles (t : Bytes) : FileSystem FileName :=
  (FileSystem.empty.create FileName.aof).1.append 0 (encodeCommand [ascii "FLUSHDB"] ++ t)

/-- The first ten bytes of `SET k v`. -/
def tornSet : Bytes := (encodeCommand [ascii "SET", ascii "k", ascii "v"]).take 10

set_option maxRecDepth 100000 in
theorem ping_behind_torn_set :
    ∃ fs', session (.plain {}) [[ascii "PING"]] ⟨tornFiles tornSet, []⟩
        = .ok ({ commands := 1, ignoredPartialTail := true }, [[ascii "FLUSHDB"]], .ok) ⟨fs', []⟩ ∧
      (ReplaysExactly (.plain {}) fs' ([[ascii "FLUSHDB"]] ++ [[ascii "PING"]]) ↔
        [[ascii "PING"]] = []) := by
  have hlog : (tornFiles tornSet).read .aof
      = some ([[ascii "FLUSHDB"]].flatMap encodeCommand ++ tornSet) := by decide
  have hsafe : pathIsSafe (Env.plain {}).config.persistence.aofPath = true := by decide
  have hlim : ∀ args ∈ [[ascii "FLUSHDB"]] ++ [[ascii "PING"]],
      WithinLimits (parserOptionsFromConfig (Env.plain {}).config.protocol) args := by decide
  exact replays_behind_torn_iff rfl hsafe hlog hlim (by decide) (by decide) (List.take_prefix _ _)
    (by decide) (by decide) (by decide)

set_option maxRecDepth 100000 in
/-- A session on a log with a torn `SET k v` serves `PING`, and the next start fails. -/
theorem torn_set_stops_replay :
    ∃ fs', session (.plain {}) [[ascii "PING"]] ⟨tornFiles tornSet, []⟩
        = .ok ({ commands := 1, ignoredPartialTail := true }, [[ascii "FLUSHDB"]], .ok) ⟨fs', []⟩ ∧
      (replayFile (Env.plain {}).config.persistence.aofPath (fs'.read .aof) {} recordCommand 0 []).1.status
        = .protocolError (ascii "AOF replay failed: malformed bulk string CRLF") :=
  ⟨_, rfl, by decide +kernel⟩

set_option maxRecDepth 100000 in
/-- With a CRLF among its arguments, a command can make up the torn record and be read all the same.
-/
example :
    let l := [ascii "*9\r\n*1\r\n$11"]
    let t := ascii "*1\r\n$11\r\n*9\r\n"
    t <+: encodeCommand [ascii "*9\r\n*1\r\n$11"] ∧
      (replayFile (ascii "aof") (some (t ++ encodeCommand l)) {} recordCommand 0 []).1.status = .ok ∧
      (replayFile (ascii "aof") (some (t ++ encodeCommand l)) {} recordCommand 0 []).2 = [l] := by
  decide +kernel

end VeloxDb
