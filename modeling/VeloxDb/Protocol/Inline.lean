import VeloxDb.Protocol.Framing

/-!
# Inline commands

A line that does not start with a RESP prefix is a command by itself: its words, split at blanks, are
the arguments. `Spaced words line` says that `line` is such a spelling of `words`, with spaces and
tabs wherever they may stand. A parser reads the words back from every spelling, as it does from the
encoded command, and goes on at the same byte behind it.
-/

namespace VeloxDb.Resp

open Decimal Util

/-- A run of spaces and tabs, maybe empty. -/
def Gap (s : Bytes) : Prop := ∀ b ∈ s, b = 32 ∨ b = 9

instance (s : Bytes) : Decidable (Gap s) := inferInstanceAs (Decidable (∀ b ∈ s, _))

/-- A word of an inline command. -/
structure Word (word : Bytes) : Prop where
  ne_nil : word ≠ []
  plain : ∀ b ∈ word, isSpace b = false

/-- The words with gaps before, between and after them; only the gaps at the ends may be empty. -/
inductive Spaced : List Bytes → Bytes → Prop
  | last {before word after : Bytes} (hbefore : Gap before) (hword : Word word) (hafter : Gap after) :
      Spaced [word] (before ++ word ++ after)
  | cons {before word : Bytes} {words : List Bytes} {b : UInt8} {rest : Bytes} (hbefore : Gap before)
      (hword : Word word) (hb : b = 32 ∨ b = 9) (hrest : Spaced words (b :: rest)) :
      Spaced (word :: words) (before ++ word ++ b :: rest)

/-! ## Splitting -/

/-- The blanks between words are blanks to `isspace`. -/
theorem isSpace_of_blank {b : UInt8} (hb : b = 32 ∨ b = 9) : isSpace b = true := by
  rcases hb with rfl | rfl <;> rfl

/-- One round of `split_words` takes the next word. -/
theorem splitWordsRound_word {before word rest : Bytes} (hbefore : Gap before) (hword : Word word)
    (hrest : ∀ b ∈ rest.head?, isSpace b = true) (words : List Bytes) :
    splitWordsRound (before ++ word ++ rest, words) = .inl (rest, words ++ [word]) := by
  obtain ⟨b, t, rfl⟩ := List.exists_cons_of_ne_nil hword.ne_nil
  have hskip : (before ++ (b :: t) ++ rest).dropWhile isSpace = (b :: t) ++ rest := by
    rw [List.append_assoc, List.dropWhile_append_of_pos fun c hc => isSpace_of_blank (hbefore c hc),
      List.cons_append, List.dropWhile_cons_of_neg (by simp [hword.plain b])]
  have hplain : ∀ c ∈ b :: t, (!isSpace c) = true := fun c hc => by simp [hword.plain c hc]
  have hstop : rest.takeWhile (fun c => !isSpace c) = [] ∧
      rest.dropWhile (fun c => !isSpace c) = rest := by
    cases rest with
    | nil => exact ⟨rfl, rfl⟩
    | cons c u =>
      have hc : isSpace c = true := hrest c rfl
      exact ⟨List.takeWhile_cons_of_neg (by simp [hc]), List.dropWhile_cons_of_neg (by simp [hc])⟩
  rw [splitWordsRound, if_neg (by simp)]
  simp only [hskip]
  rw [List.takeWhile_append_of_pos hplain, List.dropWhile_append_of_pos hplain, hstop.1, hstop.2,
    List.append_nil, if_neg hword.ne_nil]

/-- What is left behind the last word adds nothing. -/
theorem splitWords_gap {after : Bytes} (hafter : Gap after) (words : List Bytes) :
    Loop.runUntil splitWordsRound (fun s => s.1.length) splitWordsRound_lowers (after, words)
      = words := by
  have hend : ∀ words, Loop.runUntil splitWordsRound (fun s => s.1.length) splitWordsRound_lowers
      ([], words) = words := fun words => Loop.runUntil_of_inr _ rfl
  by_cases hnil : after = []
  · rw [hnil, hend]
  · have hskip : after.dropWhile isSpace = [] :=
      List.dropWhile_eq_nil_iff.mpr fun b hb => isSpace_of_blank (hafter b hb)
    have hround : splitWordsRound (after, words) = .inl ([], words) := by
      simp [splitWordsRound, hnil, hskip]
    rw [Loop.runUntil_of_inl _ hround, hend]

/-- `split_words` takes a spelling of words apart. -/
theorem splitWords_spaced {words : List Bytes} {line : Bytes} (h : Spaced words line) :
    splitWords line = words := by
  -- by induction on the spelling, with the words that were split off before
  suffices hloop : ∀ found, Loop.runUntil splitWordsRound (fun s => s.1.length)
      splitWordsRound_lowers (line, found) = found ++ words from hloop []
  induction h with
  | @last before word after hbefore hword hafter =>
    intro found
    have hblank : ∀ b ∈ after.head?, isSpace b = true :=
      fun b hb => isSpace_of_blank (hafter b (List.mem_of_head? hb))
    rw [Loop.runUntil_of_inl _ (splitWordsRound_word hbefore hword hblank found),
      splitWords_gap hafter]
  | @cons before word words b rest hbefore hword hb hrest ih =>
    intro found
    have hblank : ∀ c ∈ (b :: rest).head?, isSpace c = true := by
      rintro c ⟨⟩
      exact isSpace_of_blank hb
    rw [Loop.runUntil_of_inl _ (splitWordsRound_word hbefore hword hblank found), ih,
      List.append_assoc, List.singleton_append]

/-! ## Parsing -/

/-- A spelling is not empty, and the search for CRLF does not stop in it. -/
theorem Spaced.ne_nil {words : List Bytes} {line : Bytes} (h : Spaced words line) : line ≠ [] := by
  cases h with
  | last _ hword _ => simp [hword.ne_nil]
  | cons => simp

/-- A line of words has no carriage return. -/
theorem Spaced.no_return {words : List Bytes} {line : Bytes} (h : Spaced words line) :
    (13 : UInt8) ∉ line := by
  have hgap : ∀ {s : Bytes}, Gap s → (13 : UInt8) ∉ s := fun hs hmem => by
    rcases hs 13 hmem with h | h <;> cases h
  have hplain : ∀ {word : Bytes}, Word word → (13 : UInt8) ∉ word := fun hword hmem => by
    have hspace := hword.plain 13 hmem
    cases hspace
  induction h with
  | last hbefore hword hafter => simp [hgap hbefore, hplain hword, hgap hafter]
  | cons hbefore hword hb hrest ih => simpa [hgap hbefore, hplain hword] using ih

/-- A line of words is read as its words. -/
theorem parseInline_spaced {o : ParserOptions} {words : List Bytes} {line rest : Bytes}
    (h : Spaced words line) (hbulk : ∀ word ∈ words, word.length ≤ o.maxBulkBytes) :
    parseInline o (line ++ crlf ++ rest) 0 = .ok (.array (words.map .bulkString)) (line.length + 2) := by
  have heol : findCrlf (line ++ crlf ++ rest) 0 = some (0 + line.length) :=
    findCrlf_of_drop (not_infix_of_not_mem h.no_return) rfl
  have hany : ¬ (words.any fun word => decide (word.length > o.maxBulkBytes)) = true := by
    simpa using hbulk
  have hline : (line ++ crlf ++ rest).take line.length = line := by
    rw [List.append_assoc, List.take_left]
  simp only [parseInline, heol, List.drop_zero, Nat.zero_add, Nat.sub_zero, hline,
    splitWords_spaced h]
  rw [if_neg hany]

/-- A spelling at the front of the buffer is taken off as the command of its words. -/
theorem nextCommand_spaced {p : Parser} {words : List Bytes} {line rest : Bytes}
    (h : Spaced words line) (hbulk : ∀ word ∈ words, word.length ≤ p.options.maxBulkBytes)
    (hfirst : ∀ ch ∈ line.head?, isRespPrefix ch = false) (hb : p.buffer = line ++ crlf ++ rest)
    (hreq : (line ++ crlf).length ≤ p.options.maxRequestBytes) :
    p.nextCommand = (.ok ⟨words, line ++ crlf⟩, { p with buffer := rest }) := by
  have hlen : (line ++ crlf).length = line.length + 2 := by simp [crlf]
  have hfront : p.parseFront = .ok (.array (words.map .bulkString)) (line ++ crlf).length := by
    obtain ⟨ch, t, rfl⟩ := List.exists_cons_of_ne_nil h.ne_nil
    have hcons : p.buffer = ch :: (t ++ crlf ++ rest) := hb
    have hch : isRespPrefix ch = false := hfirst ch rfl
    rw [Parser.parseFront, hcons]
    simp only [hch, Bool.false_eq_true, if_false]
    rw [hlen]
    exact parseInline_spaced h hbulk
  have hvalue : p.nextValue
      = (.ok (.array (words.map .bulkString)) (line ++ crlf), { p with buffer := rest }) := by
    rw [Parser.nextValue, hfront]
    simp only
    rw [if_neg (by omega), hb, List.take_left, Parser.discard, hb, List.drop_left]
  simp only [Parser.nextCommand, hvalue, commandArgs_bulkStrings]

/-- **Inline and array syntax denote the same commands.** A fresh parser that is given a spelling of
the words and more bytes, and one that is given the encoded command and the same bytes, return the
same arguments and keep the same bytes. The last hypothesis is a fact about `std::string`, which is
not longer than `max_size()`. -/
theorem inline_denotes_encoded {o : ParserOptions} {words : List Bytes} {line rest : Bytes}
    (hline : Spaced words line) (hbulk : ∀ word ∈ words, word.length ≤ o.maxBulkBytes)
    (helements : words.length ≤ o.maxArrayElements)
    (hfirst : ∀ ch ∈ line.head?, isRespPrefix ch = false)
    (hinline : (line ++ crlf ++ rest).length ≤ o.maxRequestBytes)
    (hencoded : (encodeCommand words ++ rest).length ≤ o.maxRequestBytes)
    (hsize : (encodeCommand words ++ rest).length ≤ maxSize) :
    ∃ p q,
      ({ options := o } : Parser).append (line ++ crlf ++ rest) = (.ok, p) ∧
      ({ options := o } : Parser).append (encodeCommand words ++ rest) = (.ok, q) ∧
      p.nextCommand = (.ok ⟨words, line ++ crlf⟩, ⟨o, rest⟩) ∧
      q.nextCommand = (.ok ⟨words, encodeCommand words⟩, ⟨o, rest⟩) := by
  obtain ⟨q, happend, hnext⟩ := fresh_parser_decodes helements hbulk hencoded hsize
  have hreq : (line ++ crlf).length ≤ o.maxRequestBytes := by
    rw [List.length_append] at hinline
    omega
  refine ⟨⟨o, line ++ crlf ++ rest⟩, q, append_fresh hinline, happend, ?_, hnext⟩
  exact nextCommand_spaced hline hbulk hfirst rfl hreq

/-- A word that begins like a bulk string, after a tab and with blanks at the end. -/
theorem inline_denotes_encoded_dollar :
    ∃ p q,
      ({ options := {} } : Parser).append (ascii "ECHO\t$1  " ++ crlf ++ ascii "*") = (.ok, p) ∧
      ({ options := {} } : Parser).append (encodeCommand [ascii "ECHO", ascii "$1"] ++ ascii "*")
        = (.ok, q) ∧
      p.nextCommand = (.ok ⟨[ascii "ECHO", ascii "$1"], ascii "ECHO\t$1  " ++ crlf⟩, ⟨{}, ascii "*"⟩) ∧
      q.nextCommand = (.ok ⟨[ascii "ECHO", ascii "$1"], encodeCommand [ascii "ECHO", ascii "$1"]⟩,
        ⟨{}, ascii "*"⟩) := by
  have hlast : Spaced [ascii "$1"] ([9] ++ ascii "$1" ++ ascii "  ") :=
    .last (by decide +kernel) ⟨by decide +kernel, by decide +kernel⟩ (by decide +kernel)
  have hline : Spaced [ascii "ECHO", ascii "$1"] ([] ++ ascii "ECHO" ++ 9 :: ascii "$1  ") :=
    .cons (by decide +kernel) ⟨by decide +kernel, by decide +kernel⟩ (.inr rfl) hlast
  exact inline_denotes_encoded hline (by decide +kernel) (by decide +kernel) (by decide +kernel)
    (by decide +kernel) (by decide +kernel) (by decide +kernel)

end VeloxDb.Resp
