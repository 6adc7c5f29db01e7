import Mathlib.Data.List.TakeWhile
import VeloxDb.Common.Decimal
import VeloxDb.Common.Loop

/-!
# `util/string.cpp`: trimming, case folding, word splitting and integer parsing

`std::from_chars` is modelled by `fromCharsI64` and `fromCharsU64`: an optional minus sign (signed
type only), the longest run of digits, and failure on an empty run or on a value that does not fit
the type. The result carries the unread rest, the source's `result.ptr`.
-/

namespace VeloxDb.Util

open Decimal

/-- `std::isspace` in the "C" locale. -/
def isSpace (b : UInt8) : Bool := b.toNat == 32 || (9 ≤ b.toNat && b.toNat ≤ 13)

/-- `std::toupper` in the "C" locale. -/
def toUpper (b : UInt8) : UInt8 := if 97 ≤ b.toNat && b.toNat ≤ 122 then b - 32 else b

/-- `std::tolower` in the "C" locale. -/
def toLower (b : UInt8) : UInt8 := if 65 ≤ b.toNat && b.toNat ≤ 90 then b + 32 else b

/-- `trim`: the blanks at both ends go. -/
def trim (input : Bytes) : Bytes :=
  ((input.dropWhile isSpace).reverse.dropWhile isSpace).reverse

/-- `to_upper_ascii`. -/
def toUpperAscii (input : Bytes) : Bytes := input.map toUpper

/-- `to_lower_ascii`. -/
def toLowerAscii (input : Bytes) : Bytes := input.map toLower

/-- One round of the scan of `split_words`: skip blanks, take a word, keep it if it is not empty. -/
def splitWordsRound (s : Bytes × List Bytes) : (Bytes × List Bytes) ⊕ List Bytes :=
  if s.1 = [] then .inr s.2
  else
    let rest := s.1.dropWhile isSpace
    let word := rest.takeWhile fun b => !isSpace b
    .inl (rest.dropWhile fun b => !isSpace b, if word = [] then s.2 else s.2 ++ [word])

private theorem length_dropWhile_le (p : UInt8 → Bool) (l : Bytes) :
    (l.dropWhile p).length ≤ l.length :=
  (List.dropWhile_suffix p).length_le

/-- A round of `split_words` takes bytes off what is left. -/
theorem splitWordsRound_lowers : Loop.Lowers splitWordsRound fun s => s.1.length := by
  intro s s' h
  obtain ⟨line, words⟩ := s
  cases line with
  | nil => simp [splitWordsRound] at h
  | cons b t =>
    simp only [splitWordsRound, List.cons_ne_nil, if_false, Sum.inl.injEq] at h
    subst h
    simp only [List.length_cons]
    cases hb : isSpace b with
    | true =>
      have h1 := length_dropWhile_le (fun b => !isSpace b) (t.dropWhile isSpace)
      have h2 := length_dropWhile_le isSpace t
      simp only [List.dropWhile_cons, hb, if_true]
      omega
    | false =>
      have h1 := length_dropWhile_le (fun b => !isSpace b) t
      simp only [List.dropWhile_cons, hb, Bool.false_eq_true, if_false, Bool.not_false, if_true]
      omega

/-- The maximal runs of non-blank bytes of a line. -/
def splitWords (line : Bytes) : List Bytes :=
  Loop.runUntil splitWordsRound (fun s => s.1.length) splitWordsRound_lowers (line, [])

/-! ## Integers -/

/-- The least 64-bit number. -/
def int64Min : ℤ := -(2 ^ 63)

/-- The greatest 64-bit number. -/
def int64Max : ℤ := 2 ^ 63 - 1

/-- The greatest unsigned 64-bit number. -/
def uint64Max : ℕ := 2 ^ 64 - 1

/-- The digits behind an optional minus sign. -/
def fromCharsI64 (s : Bytes) : Option (ℤ × Bytes) :=
  match s with
  | 45 :: t =>
    let (digits, rest) := t.span isDigit
    if digits = [] ∨ -(read digits : ℤ) < int64Min then none else some (-(read digits : ℤ), rest)
  | t =>
    let (digits, rest) := t.span isDigit
    if digits = [] ∨ int64Max < (read digits : ℤ) then none else some ((read digits : ℤ), rest)

/-- `std::from_chars` for an unsigned number: its value and the rest of the text. -/
def fromCharsU64 (s : Bytes) : Option (ℕ × Bytes) :=
  let (digits, rest) := s.span isDigit
  if digits = [] ∨ uint64Max < read digits then none else some (read digits, rest)

/-- `from_chars` that has to use up its whole input (`result.ptr != last`). -/
def wholeI64 (s : Bytes) : Option ℤ :=
  match fromCharsI64 s with
  | some (v, []) => some v
  | _ => none

/-- `parse_i64`: blanks at both ends are allowed, a sign `+` is not. -/
def parseI64 (input : Bytes) : Option ℤ :=
  let trimmed := trim input
  if trimmed = [] then none else wholeI64 trimmed

/-- `parse_u64`: blanks at both ends are allowed, a sign is not. -/
def parseU64 (input : Bytes) : Option ℕ :=
  let trimmed := trim input
  if trimmed = [] ∨ trimmed.head? = some 45 then none
  else
    match fromCharsU64 trimmed with
    | some (v, []) => some v
    | _ => none

/-- `parse_bool`. -/
def parseBool (input : Bytes) : Option Bool :=
  let value := toLowerAscii (trim input)
  if value = ascii "1" ∨ value = ascii "true" ∨ value = ascii "yes" ∨ value = ascii "on" then
    some true
  else if value = ascii "0" ∨ value = ascii "false" ∨ value = ascii "no" ∨ value = ascii "off" then
    some false
  else none

/-- The values of `int64_t`. -/
def InI64 (i : ℤ) : Prop := int64Min ≤ i ∧ i ≤ int64Max

instance (i : ℤ) : Decidable (InI64 i) := inferInstanceAs (Decidable (_ ∧ _))

/-- A digit is no sign. -/
private theorem isDigit_ne_minus {b : UInt8} (hb : isDigit b = true) : b ≠ 45 := by
  rintro rfl
  simp [isDigit] at hb

/-- A printed `int64_t` is read back, with nothing left over. -/
theorem wholeI64_printInt {i : ℤ} (hi : InI64 i) : wholeI64 (printInt i) = some i := by
  have hspan : (print i.natAbs).span isDigit = (print i.natAbs, []) := by
    simpa using span_print i.natAbs (by simp : ∀ b, ([] : Bytes).head? = some b → isDigit b = false)
  obtain ⟨hmin, hmax⟩ := hi
  rw [wholeI64, printInt]
  split_ifs with hneg
  · have habs : -(i.natAbs : ℤ) = i := by omega
    simp only [fromCharsI64, hspan, read_print, habs, print_ne_nil, false_or]
    rw [if_neg (by omega)]
  · have habs : (i.natAbs : ℤ) = i := by omega
    have hhead : fromCharsI64 (print i.natAbs) = some (i, []) := by
      obtain ⟨b, hb, hdig⟩ := head?_print i.natAbs
      cases hp : print i.natAbs with
      | nil => exact absurd hp (print_ne_nil _)
      | cons c t =>
        rw [hp, List.head?_cons, Option.some.injEq] at hb
        subst hb
        have hne := isDigit_ne_minus hdig
        rw [fromCharsI64.eq_2 _ (by rintro t ⟨⟩; exact hne rfl), ← hp, hspan]
        simp only [read_print, habs, print_ne_nil, false_or]
        rw [if_neg (by omega)]
    rw [hhead]

/-- A text that `from_chars` takes whole is a run of digits, behind a minus sign or not, and the
number fits. -/
theorem wholeI64_cases {s : Bytes} {i : ℤ} (h : wholeI64 s = some i) :
    ∃ digits, digits ≠ [] ∧ (∀ b ∈ digits, isDigit b = true) ∧
      ((s = 45 :: digits ∧ i = -(read digits : ℤ) ∧ int64Min ≤ i) ∨
        (s = digits ∧ i = read digits ∧ i ≤ int64Max)) := by
  have hall : ∀ t : Bytes, t.dropWhile isDigit = [] → t.takeWhile isDigit = t := by
    intro t ht
    simpa [ht] using List.takeWhile_append_dropWhile (p := isDigit) (l := t)
  have hdigits : ∀ t : Bytes, ∀ b ∈ t.takeWhile isDigit, isDigit b = true := fun t b hb =>
    List.mem_takeWhile_imp hb
  rw [wholeI64] at h
  split at h
  swap
  · cases h
  next v hfrom =>
  cases h
  rw [fromCharsI64.eq_def] at hfrom
  split at hfrom
  · next t =>
    simp only [List.span_eq_takeWhile_dropWhile] at hfrom
    split_ifs at hfrom with hbad
    simp only [Option.some.injEq, Prod.mk.injEq] at hfrom
    rw [not_or, not_lt] at hbad
    have hdig := hdigits t
    rw [hall _ hfrom.2] at hbad hfrom hdig
    exact ⟨_, hbad.1, hdig, .inl ⟨rfl, hfrom.1.symm, hfrom.1 ▸ hbad.2⟩⟩
  · simp only [List.span_eq_takeWhile_dropWhile] at hfrom
    split_ifs at hfrom with hbad
    simp only [Option.some.injEq, Prod.mk.injEq] at hfrom
    rw [not_or, not_lt] at hbad
    have hdig := hdigits s
    rw [hall _ hfrom.2] at hbad hfrom hdig
    exact ⟨_, hbad.1, hdig, .inr ⟨rfl, hfrom.1.symm, hfrom.1 ▸ hbad.2⟩⟩

/-- What is parsed is in range. -/
theorem inI64_of_wholeI64 {s : Bytes} {i : ℤ} (h : wholeI64 s = some i) : InI64 i := by
  obtain ⟨digits, -, -, ⟨-, rfl, hmin⟩ | ⟨-, rfl, hmax⟩⟩ := wholeI64_cases h
  · simp only [InI64, int64Min, int64Max] at hmin ⊢
    omega
  · simp only [InI64, int64Min, int64Max] at hmax ⊢
    omega

/-- No text for a number is shorter than the one that `std::to_string` prints. -/
theorem length_printInt_le_of_wholeI64 {s : Bytes} {i : ℤ} (h : wholeI64 s = some i) :
    (printInt i).length ≤ s.length := by
  obtain ⟨digits, hne, hdig, ⟨rfl, rfl, -⟩ | ⟨rfl, rfl, -⟩⟩ := wholeI64_cases h
  · have hlen := length_print_read_le hne hdig
    rw [printInt]
    split_ifs <;> simp <;> omega
  · rw [printInt, if_neg (by omega), Int.natAbs_natCast]
    exact length_print_read_le hne hdig

/-- The longest numeral of 64 bits has a sign and 19 digits. -/
theorem length_printInt_le {i : ℤ} (h : InI64 i) : (printInt i).length ≤ 20 := by
  have habs : i.natAbs < 10 ^ 19 := by
    simp only [InI64, int64Min, int64Max] at h
    omega
  have hlen := length_print_le habs (by decide)
  rw [printInt]
  split_ifs <;> simp <;> omega

/-- A digit is no blank. -/
private theorem isDigit_not_isSpace {b : UInt8} (hb : isDigit b = true) : isSpace b = false := by
  simp only [isDigit, Bool.and_eq_true, decide_eq_true_eq] at hb
  simp only [isSpace, Bool.or_eq_false_iff, Bool.and_eq_false_iff, beq_eq_false_iff_ne,
    decide_eq_false_iff_not]
  omega

/-- Neither end of the text is a blank. -/
def NoOuterBlanks (l : Bytes) : Prop :=
  (∀ b ∈ l.head?, isSpace b = false) ∧ ∀ b ∈ l.getLast?, isSpace b = false

instance (l : Bytes) : Decidable (NoOuterBlanks l) := inferInstanceAs (Decidable (_ ∧ _))

/-- Nothing is dropped exactly if the first byte is no blank. -/
theorem dropWhile_isSpace_eq_self_iff {l : Bytes} :
    l.dropWhile isSpace = l ↔ ∀ b ∈ l.head?, isSpace b = false := by
  rw [List.dropWhile_eq_self_iff]
  cases l <;> simp

/-- Nothing is trimmed exactly if no end is a blank. -/
theorem trim_eq_self_iff {l : Bytes} : trim l = l ↔ NoOuterBlanks l := by
  constructor
  · intro h
    -- nothing was dropped on the left, because nothing can be put back on the right
    have hleft : l.dropWhile isSpace <:+ l := List.dropWhile_suffix isSpace
    have hright := (List.dropWhile_suffix isSpace (l := (l.dropWhile isSpace).reverse)).length_le
    have hlen := congrArg List.length h
    rw [trim, List.length_reverse] at hlen
    rw [List.length_reverse] at hright
    have heq : l.dropWhile isSpace = l := hleft.eq_of_length (le_antisymm hleft.length_le (by omega))
    rw [trim, heq, List.reverse_eq_iff] at h
    exact ⟨dropWhile_isSpace_eq_self_iff.mp heq,
      by simpa using dropWhile_isSpace_eq_self_iff.mp h⟩
  · rintro ⟨hhead, hlast⟩
    have hrev : l.reverse.dropWhile isSpace = l.reverse :=
      dropWhile_isSpace_eq_self_iff.mpr (by simpa using hlast)
    rw [trim, dropWhile_isSpace_eq_self_iff.mpr hhead, hrev, List.reverse_reverse]

/-- Text without blanks is not changed by trimming. -/
theorem trim_eq_self {l : Bytes} (h : ∀ b ∈ l, isSpace b = false) : trim l = l :=
  trim_eq_self_iff.mpr
    ⟨fun b hb => h b (List.mem_of_head? hb), fun b hb => h b (List.mem_of_getLast? hb)⟩

/-- What is left starts with no blank. -/
theorem head_dropWhile_isSpace {l : Bytes} {b : UInt8} (h : (l.dropWhile isSpace).head? = some b) :
    isSpace b = false := by
  have hnot := List.head?_dropWhile_not isSpace l
  rwa [h] at hnot

/-- What is trimmed has no blank at its ends. -/
theorem noOuterBlanks_trim (l : Bytes) : NoOuterBlanks (trim l) := by
  constructor
  · intro b hb
    -- the first byte that is left was the first one before the right end was cut
    obtain ⟨cut, hcut⟩ := List.dropWhile_suffix isSpace (l := (l.dropWhile isSpace).reverse)
    rw [trim, List.head?_reverse] at hb
    have hlast : (l.dropWhile isSpace).reverse.getLast? = some b := by
      rw [← hcut, List.getLast?_append, hb]
      rfl
    rw [List.getLast?_reverse] at hlast
    exact head_dropWhile_isSpace hlast
  · intro b hb
    rw [trim, List.getLast?_reverse] at hb
    exact head_dropWhile_isSpace hb

/-- A blank at the end is trimmed. -/
theorem trim_concat_of_isSpace {b : UInt8} (hb : isSpace b = true) (l : Bytes) :
    trim (l ++ [b]) = trim l := by
  rw [trim, List.dropWhile_append]
  split_ifs with hempty
  · rw [trim, List.isEmpty_iff.mp hempty, List.dropWhile_cons_of_pos hb]
    rfl
  · rw [List.reverse_append, List.reverse_singleton, List.singleton_append,
      List.dropWhile_cons_of_pos hb, trim]

/-- What was trimmed on the right already may be trimmed again. -/
theorem trim_rtrim (l : Bytes) : trim (l.reverse.dropWhile isSpace).reverse = trim l := by
  suffices h : ∀ w : Bytes, trim (w.dropWhile isSpace).reverse = trim w.reverse by
    rw [h, List.reverse_reverse]
  intro w
  induction w with
  | nil => rfl
  | cons b w ih =>
    by_cases hb : isSpace b = true
    · rw [List.dropWhile_cons_of_pos hb, ih, List.reverse_cons, trim_concat_of_isSpace hb]
    · rw [List.dropWhile_cons_of_neg hb]

/-- Trimming adds no byte. -/
theorem mem_of_mem_trim {l : Bytes} {b : UInt8} (h : b ∈ trim l) : b ∈ l := by
  rw [trim, List.mem_reverse] at h
  exact (List.dropWhile_suffix _).subset (List.mem_reverse.mp ((List.dropWhile_suffix _).subset h))

/-- A printed number has no blank. -/
theorem printInt_not_isSpace (i : ℤ) : ∀ b ∈ printInt i, isSpace b = false := by
  intro b hb
  rw [printInt] at hb
  split_ifs at hb with hneg
  · rcases List.mem_cons.mp hb with rfl | hb
    · rfl
    · exact isDigit_not_isSpace (print_isDigit _ b hb)
  · exact isDigit_not_isSpace (print_isDigit _ b hb)

/-- A printed number is not empty. -/
theorem printInt_ne_nil (i : ℤ) : printInt i ≠ [] := by
  rw [printInt]
  split_ifs
  · simp
  · exact print_ne_nil _

/-- `parse_i64` reads back what `std::to_string` printed. -/
theorem parseI64_printInt {i : ℤ} (hi : InI64 i) : parseI64 (printInt i) = some i := by
  rw [parseI64, trim_eq_self (printInt_not_isSpace i)]
  simp only [printInt_ne_nil, if_false, wholeI64_printInt hi]

/-- A printed count has no blank. -/
theorem print_not_isSpace (n : ℕ) : ∀ b ∈ print n, isSpace b = false := fun b hb =>
  isDigit_not_isSpace (print_isDigit n b hb)

/-- `parse_u64` reads back what was printed, within its range. -/
theorem parseU64_print (n : ℕ) : parseU64 (print n) = if n ≤ uint64Max then some n else none := by
  have hspan : (print n).span isDigit = (print n, []) := by
    simpa using span_print n (by simp : ∀ b, ([] : Bytes).head? = some b → isDigit b = false)
  have hminus : (print n).head? ≠ some 45 := by
    intro h
    have hdigit := print_isDigit n 45 (List.mem_of_head? h)
    cases hdigit
  simp only [parseU64, trim_eq_self (print_not_isSpace n), fromCharsU64, hspan, print_ne_nil, hminus,
    or_self, if_false, false_or, read_print]
  by_cases hn : n ≤ uint64Max
  · rw [if_neg (by omega), if_pos hn]
  · rw [if_pos (by omega), if_neg hn]

end VeloxDb.Util
