import Mathlib.Algebra.Group.Int.Defs
import Mathlib.Algebra.Group.Nat.Defs
import Mathlib.Tactic.SplitIfs

/-!
# Computations that stop at a fault

What a machine does without saying so is made visible: an index or a range outside its array, a
result that does not fit into 64 bits, a call nested more deeply than it was allowed.
A computation that meets one of these is an `Except.error`; so a program has none of them on an input
if and only if it returns there. The operations return where their conditions hold, and
`ok_bind` then puts the result into what follows.
-/

/-- What a machine does not report. -/
inductive Fault
  | outOfBounds
  | wrapped
  | tooDeep
deriving DecidableEq, Repr

/-- A computation that may meet a fault. -/
abbrev Checked (α : Type) := Except Fault α

namespace Checked

variable {α β : Type}

/-- Addition of 64-bit words. -/
def add (a b : ℕ) : Checked ℕ := if a + b < 2 ^ 64 then .ok (a + b) else .error .wrapped

/-- Subtraction of 64-bit words. -/
def sub (a b : ℕ) : Checked ℕ := if b ≤ a then .ok (a - b) else .error .wrapped

/-- A result of signed 64-bit arithmetic. -/
def int64 (x : ℤ) : Checked ℤ := if -2 ^ 63 ≤ x ∧ x < 2 ^ 63 then .ok x else .error .wrapped

/-- The element at an index. -/
def load (s : List α) (i : ℕ) : Checked α :=
  match s[i]? with
  | some x => .ok x
  | none => .error .outOfBounds

/-- The elements from an index on, so many of them. -/
def slice (s : List α) (start len : ℕ) : Checked (List α) :=
  if start + len ≤ s.length then .ok ((s.drop start).take len) else .error .outOfBounds

/-- A sum that fits is that of the numbers. -/
theorem add_eq {a b : ℕ} (h : a + b < 2 ^ 64) : add a b = .ok (a + b) := if_pos h

/-- A difference that is not negative is that of the numbers. -/
theorem sub_eq {a b : ℕ} (h : b ≤ a) : sub a b = .ok (a - b) := if_pos h

/-- A number of 64 bits is itself. -/
theorem int64_eq {x : ℤ} (h : -2 ^ 63 ≤ x ∧ x < 2 ^ 63) : int64 x = .ok x := if_pos h

/-- Another number wraps. -/
theorem int64_of_wrapped {x : ℤ} (h : ¬ (-2 ^ 63 ≤ x ∧ x < 2 ^ 63)) : int64 x = .error .wrapped :=
  if_neg h

/-- A byte within the bounds is read. -/
theorem load_eq {s : List α} {i : ℕ} {x : α} (h : s[i]? = some x) : load s i = .ok x := by
  rw [load, h]

/-- A stretch within the bounds is read. -/
theorem slice_eq {s : List α} {start len : ℕ} (h : start + len ≤ s.length) :
    slice s start len = .ok ((s.drop start).take len) := if_pos h

/-- A test before two computations that return. -/
theorem ite_eq_ok {c : Prop} [Decidable c] {x y : Checked α} {a b : α} (hx : c → x = .ok a)
    (hy : ¬ c → y = .ok b) : (if c then x else y) = .ok (if c then a else b) := by
  split_ifs with hc
  · exact hx hc
  · exact hy hc

/-- Without a fault the rest follows. -/
@[simp] theorem ok_bind (a : α) (f : α → Checked β) : (Except.ok a >>= f : Checked β) = f a := rfl

end Checked
