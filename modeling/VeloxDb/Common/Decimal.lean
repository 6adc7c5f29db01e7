import Mathlib.Data.Nat.Digits.Lemmas
import Mathlib.Tactic.IntervalCases

/-!
# Byte strings and their decimal numerals

`print` writes a natural number as ASCII decimal digits and `read` folds a run of digit bytes back
into a number. `read_print` is the round trip; `print_isDigit` and `print_ne_nil` say that a printed
numeral is a non-empty run of digits, so a scanner that stops at the first non-digit stops exactly
behind it (`span_print`).
-/

/-- A string of bytes. -/
abbrev Bytes := List UInt8

/-- The bytes of an ASCII literal. -/
def ascii (s : String) : Bytes := s.toList.map fun c => UInt8.ofNat c.toNat

namespace Decimal

/-- The digit byte of a value below ten. -/
def digitByte (d : ℕ) : UInt8 := UInt8.ofNat (48 + d)

/-- The ASCII digits `0` to `9`. -/
def isDigit (b : UInt8) : Bool := 48 ≤ b.toNat && b.toNat ≤ 57

/-- The value of a digit byte. -/
def digitValue (b : UInt8) : ℕ := b.toNat - 48

/-- The decimal numeral of `n`, most significant digit first and without leading zeros. -/
def print (n : ℕ) : Bytes :=
  if n = 0 then [digitByte 0] else (Nat.digits 10 n).reverse.map digitByte

/-- The number a run of digit bytes denotes. -/
def read (l : Bytes) : ℕ := l.foldl (fun acc b => acc * 10 + digitValue b) 0

/-- The numeral of an integer: a minus sign in front of the absolute value where it is negative. -/
def printInt (i : ℤ) : Bytes := if i < 0 then 45 :: print i.natAbs else print i.natAbs

/-- The byte of a digit is one. -/
theorem isDigit_digitByte {d : ℕ} (hd : d < 10) : isDigit (digitByte d) = true := by
  interval_cases d <;> rfl

/-- The byte of a digit has its value. -/
theorem digitValue_digitByte {d : ℕ} (hd : d < 10) : digitValue (digitByte d) = d := by
  interval_cases d <;> rfl

/-- A numeral is not empty. -/
theorem print_ne_nil (n : ℕ) : print n ≠ [] := by
  rw [print]
  split
  · simp
  · next hn => simpa [Nat.digits_eq_nil_iff_eq_zero] using hn

/-- A numeral has digits only. -/
theorem print_isDigit (n : ℕ) : ∀ b ∈ print n, isDigit b = true := by
  intro b hb
  rw [print] at hb
  split at hb
  · rw [List.mem_singleton] at hb
    subst hb
    rfl
  · rw [List.mem_map] at hb
    obtain ⟨d, hd, rfl⟩ := hb
    exact isDigit_digitByte (Nat.digits_lt_base (by omega) (List.mem_reverse.mp hd))

/-- Folding digit values most significant first is `Nat.ofDigits` of the reversed list. -/
private theorem foldl_reverse_eq_ofDigits (l : List ℕ) :
    l.reverse.foldl (fun acc d => acc * 10 + d) 0 = Nat.ofDigits 10 l := by
  induction l with
  | nil => rfl
  | cons d l ih =>
    rw [List.reverse_cons, List.foldl_append, ih, Nat.ofDigits_cons]
    simp only [List.foldl_cons, List.foldl_nil]
    omega

/-- **Round trip of decimal numerals.** -/
theorem read_print (n : ℕ) : read (print n) = n := by
  rw [print]
  split
  · next hn =>
    subst hn
    rfl
  · have hval : ∀ d ∈ (Nat.digits 10 n).reverse, digitValue (digitByte d) = d := fun d hd =>
      digitValue_digitByte (Nat.digits_lt_base (by omega) (List.mem_reverse.mp hd))
    have hmap : ((Nat.digits 10 n).reverse.map digitByte).map digitValue
        = (Nat.digits 10 n).reverse := by
      rw [List.map_map]
      conv_rhs => rw [← List.map_id (Nat.digits 10 n).reverse]
      exact List.map_congr_left fun d hd => hval d hd
    have hread : ∀ l : Bytes, read l = (l.map digitValue).foldl (fun acc d => acc * 10 + d) 0 := by
      intro l
      rw [read, List.foldl_map]
    rw [hread, hmap, foldl_reverse_eq_ofDigits, Nat.ofDigits_digits]

/-- A numeral is bounded by its length. -/
theorem read_lt_pow {l : Bytes} (h : ∀ b ∈ l, isDigit b = true) : read l < 10 ^ l.length := by
  have hgen : ∀ (l : Bytes) (acc : ℕ), (∀ b ∈ l, isDigit b = true) →
      l.foldl (fun acc b => acc * 10 + digitValue b) acc < (acc + 1) * 10 ^ l.length := by
    intro l
    induction l with
    | nil => intro acc _; simp
    | cons b t ih =>
      intro acc h
      have hb : digitValue b ≤ 9 := by
        have := h b (by simp)
        simp only [isDigit, Bool.and_eq_true, decide_eq_true_eq] at this
        rw [digitValue]
        omega
      rw [List.foldl_cons, List.length_cons, Nat.pow_succ]
      calc _ < (acc * 10 + digitValue b + 1) * 10 ^ t.length := ih _ fun c hc => h c (by simp [hc])
        _ ≤ ((acc + 1) * 10) * 10 ^ t.length := Nat.mul_le_mul_right _ (by omega)
        _ = (acc + 1) * (10 ^ t.length * 10) := by ring
  simpa [read] using hgen l 0 h

/-- A number below a power of ten has a short numeral. -/
theorem length_print_le {n digits : ℕ} (hn : n < 10 ^ digits) (hdigits : 0 < digits) :
    (print n).length ≤ digits := by
  rw [print]
  split
  · exact hdigits
  · rw [List.length_map, List.length_reverse, Nat.digits_length_le_iff (by omega)]
    exact hn

/-- The numeral of a number is the shortest run of digits for it. -/
theorem length_print_read_le {l : Bytes} (hne : l ≠ []) (h : ∀ b ∈ l, isDigit b = true) :
    (print (read l)).length ≤ l.length :=
  length_print_le (read_lt_pow h) (List.length_pos_iff.mpr hne)

/-- A scanner for the longest run of digits stops exactly behind a printed numeral. -/
theorem span_print (n : ℕ) {rest : Bytes} (hrest : ∀ b, rest.head? = some b → isDigit b = false) :
    (print n ++ rest).span isDigit = (print n, rest) := by
  have hdrop : rest.dropWhile isDigit = rest := by
    cases rest with
    | nil => rfl
    | cons b t => simp [hrest b rfl]
  have htake : rest.takeWhile isDigit = [] := by
    cases rest with
    | nil => rfl
    | cons b t => simp [hrest b rfl]
  rw [List.span_eq_takeWhile_dropWhile, List.takeWhile_append_of_pos (print_isDigit n),
    List.dropWhile_append_of_pos (print_isDigit n), hdrop, htake, List.append_nil]

/-- The first byte of a numeral is a digit. -/
theorem head?_print (n : ℕ) : ∃ b, (print n).head? = some b ∧ isDigit b = true := by
  cases hp : print n with
  | nil => exact absurd hp (print_ne_nil n)
  | cons b t => exact ⟨b, rfl, print_isDigit n b (by simp [hp])⟩

end Decimal
