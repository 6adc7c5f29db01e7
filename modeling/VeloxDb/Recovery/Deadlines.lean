import Mathlib.Tactic.NormNum
import VeloxDb.Commands.Effects

/-!
# Deadlines that come back from the log

A record carries a deadline in whole milliseconds, and `SET … PXAT` turns it into a time to live and
back at the reading of the clock when the log is replayed. `Returns T m d d'` says how a deadline
`d` of the live engine may come back as `d'` in a replay at time `T`. With margin `m = 0` it is the
same; with a positive margin it may move by fractions of a millisecond, but it does not come after
`T` where `d` did not, and it comes after `T` where `d` is more than the margin later.
-/

namespace VeloxDb

open Decimal Util

/-! ## Arithmetic without wrap-around -/

/-- A reading of the clock: a representable time that is not before the epoch. -/
def InClock (t : ℤ) : Prop := 0 ≤ t ∧ t ≤ int64Max

instance (t : ℤ) : Decidable (InClock t) := inferInstanceAs (Decidable (_ ∧ _))

/-- A number of 64 bits does not wrap. -/
theorem wrap64_of_inI64 {x : ℤ} (h : InI64 x) : wrap64 x = x := by
  simp only [InI64, int64Min, int64Max] at h
  refine Int.bmod_eq_of_le_mul_two ?_ ?_ <;> norm_num <;> omega

/-- What has wrapped is a number of 64 bits. -/
theorem inI64_wrap64 (x : ℤ) : InI64 (wrap64 x) := by
  have hlo := Int.le_bmod (x := x) (m := 2 ^ 64) (by norm_num)
  have hhi := Int.bmod_lt (x := x) (m := 2 ^ 64) (by norm_num)
  simp only [InI64, int64Min, int64Max, wrap64]
  norm_num at hlo hhi ⊢
  omega

/-- A deadline that fits is the sum. -/
theorem addMillis_of_inI64 {t ms : ℤ} (h : InI64 (t + ms * nanosPerMilli)) :
    addMillis t ms = t + ms * nanosPerMilli := by
  rw [addMillis, wrap64, wrap64, Int.add_bmod_bmod, ← wrap64, wrap64_of_inI64 h]

/-- The quotient that truncates towards zero, by its remainder. -/
theorem tdiv_nanosPerMilli (x : ℤ) :
    (0 ≤ x → x - nanosPerMilli < x.tdiv nanosPerMilli * nanosPerMilli ∧
      x.tdiv nanosPerMilli * nanosPerMilli ≤ x) ∧
    (x ≤ 0 → x ≤ x.tdiv nanosPerMilli * nanosPerMilli ∧
      x.tdiv nanosPerMilli * nanosPerMilli < x + nanosPerMilli) := by
  have hsum := Int.tmod_add_tdiv_mul x nanosPerMilli
  constructor
  · intro hx
    have hpos := Int.tmod_nonneg nanosPerMilli hx
    have hlt := Int.tmod_lt_of_pos x (b := nanosPerMilli) (by decide)
    omega
  · intro hx
    have hpos := Int.tmod_nonneg nanosPerMilli (Int.neg_nonneg_of_nonpos hx)
    have hlt := Int.tmod_lt_of_pos (-x) (b := nanosPerMilli) (by decide)
    rw [Int.neg_tmod] at hpos hlt
    omega

/-- The milliseconds of a time point fit. -/
theorem inI64_unixMs {d : ℤ} (h : InI64 d) : InI64 (unixMs d) := by
  obtain ⟨hpos, hneg⟩ := tdiv_nanosPerMilli d
  simp only [unixMs, InI64, int64Min, int64Max, nanosPerMilli] at *
  omega

/-- Through milliseconds and back, without a wrap. -/
theorem timepointFromUnixMs_unixMs {d : ℤ} (h : InI64 d) :
    timepointFromUnixMs (unixMs d) = unixMs d * nanosPerMilli := by
  have hin : InI64 (unixMs d * nanosPerMilli) := by
    obtain ⟨hpos, hneg⟩ := tdiv_nanosPerMilli d
    simp only [unixMs, InI64, int64Min, int64Max, nanosPerMilli] at *
    omega
  rw [timepointFromUnixMs, wrap64_of_inI64 hin]

/-- Whole milliseconds come back exactly. -/
theorem tdiv_mul_of_dvd {x : ℤ} (h : nanosPerMilli ∣ x) :
    x.tdiv nanosPerMilli * nanosPerMilli = x :=
  Int.tdiv_mul_cancel h

/-! ## How a deadline comes back -/

/-- The deadline of a live entry, and what a replay at `T` may make of it. -/
def Returns (T m : ℤ) : Option ℤ → Option ℤ → Prop
  | none, none => True
  | some d, some d' => d' = d ∨ (0 < m ∧ (d ≤ T → d' ≤ T) ∧ (T + m < d → T < d'))
  | _, _ => False

namespace Returns

variable {T m : ℤ}

/-- A deadline comes back as itself. -/
theorem refl (d : Option ℤ) : Returns T m d d := by
  cases d with
  | none => trivial
  | some d => exact Or.inl rfl

/-- With no millisecond to lose a deadline comes back exactly. -/
theorem exact {d p : Option ℤ} (h : Returns T 0 d p) : p = d := by
  cases d <;> cases p
  · rfl
  · exact h.elim
  · exact h.elim
  · rcases h with rfl | ⟨hm, -⟩
    · rfl
    · exact absurd hm (lt_irrefl 0)

/-- A deadline that has come by `T` comes back as one that has. -/
theorem of_le {d : ℤ} {p : Option ℤ} (h : Returns T m (some d) p) (hd : d ≤ T) :
    ∃ d' ≤ T, p = some d' := by
  cases p with
  | none => exact h.elim
  | some d' =>
    refine ⟨d', ?_, rfl⟩
    rcases h with rfl | ⟨-, hle, -⟩
    · exact hd
    · exact hle hd

/-- A deadline that is later than `T` by more than the margin comes back as one that is later. -/
theorem of_lt {d d' : ℤ} (h : Returns T m (some d) (some d')) (hm : 0 ≤ m)
    (hd : T + m < d) : T < d' := by
  rcases h with rfl | ⟨-, -, hlt⟩
  · omega
  · exact hlt hd

end Returns

/-- A command at reading `now` and a replay at `T`: the clock has not gone back, and either
everything is in whole milliseconds or the margin allows for the fractions. -/
structure Timely (T m now : ℤ) : Prop where
  now_clock : InClock now
  restart_clock : InClock T
  le : now ≤ T
  precise : (m = 0 ∧ nanosPerMilli ∣ now ∧ nanosPerMilli ∣ T) ∨ 2 * nanosPerMilli ≤ m

/-- A deadline logged as `PEXPIREAT`. -/
theorem returns_unixMs {T m d : ℤ} (hT : 0 ≤ T) (hd : InI64 d)
    (hprec : (m = 0 ∧ nanosPerMilli ∣ d) ∨ 2 * nanosPerMilli ≤ m) :
    Returns T m (some d) (some (timepointFromUnixMs (unixMs d))) := by
  obtain ⟨hpos, hneg⟩ := tdiv_nanosPerMilli d
  rw [timepointFromUnixMs_unixMs hd, unixMs]
  rcases hprec with ⟨rfl, hdvd⟩ | hm
  · exact Or.inl (tdiv_mul_of_dvd hdvd)
  · simp only [nanosPerMilli] at *
    exact Or.inr ⟨by omega, fun _ => by omega, fun _ => by omega⟩

/-- What `SET … PXAT p` sets at reading `t`. -/
theorem pxat_deadline {t p : ℤ} (ht : InClock t) (hp : 0 < p) (hrange : p * nanosPerMilli ≤ int64Max) :
    addMillis t (millisBetween (timepointFromUnixMs p) t)
      = t + (p * nanosPerMilli - t).tdiv nanosPerMilli * nanosPerMilli := by
  obtain ⟨hpos, hneg⟩ := tdiv_nanosPerMilli (p * nanosPerMilli - t)
  have hp' : InI64 (p * nanosPerMilli) := by
    simp only [InI64, InClock, int64Min, int64Max, nanosPerMilli] at *
    omega
  have hdiff : InI64 (p * nanosPerMilli - t) := by
    simp only [InI64, InClock, int64Min, int64Max, nanosPerMilli] at *
    omega
  rw [millisBetween, timepointFromUnixMs, wrap64_of_inI64 hp', wrap64_of_inI64 hdiff]
  refine addMillis_of_inI64 ?_
  simp only [InI64, InClock, int64Min, int64Max, nanosPerMilli] at *
  omega

/-- `SET … PXAT`, logged as it is. -/
theorem returns_pxat {T m now p : ℤ} (h : Timely T m now) (hp : 0 < p)
    (hrange : p * nanosPerMilli ≤ int64Max) :
    Returns T m (some (addMillis now (millisBetween (timepointFromUnixMs p) now)))
      (some (addMillis T (millisBetween (timepointFromUnixMs p) T))) := by
  rw [pxat_deadline h.now_clock hp hrange, pxat_deadline h.restart_clock hp hrange]
  have hle := h.le
  rcases h.precise with ⟨rfl, hnow, hT⟩ | hm
  · left
    rw [tdiv_mul_of_dvd (Int.dvd_sub (Int.dvd_mul_left _ _) hnow),
      tdiv_mul_of_dvd (Int.dvd_sub (Int.dvd_mul_left _ _) hT)]
    omega
  · right
    obtain ⟨hpos, hneg⟩ := tdiv_nanosPerMilli (p * nanosPerMilli - now)
    obtain ⟨hpos', hneg'⟩ := tdiv_nanosPerMilli (p * nanosPerMilli - T)
    simp only [nanosPerMilli] at *
    exact ⟨by omega, fun _ => by omega, fun _ => by omega⟩

/-- `SET … EX` and `SET … PX`, logged as `PXAT`. -/
theorem returns_ttl {T m now ttl : ℤ} (h : Timely T m now) (httl : 0 < ttl)
    (hrange : now + ttl * nanosPerMilli ≤ int64Max) :
    0 < unixMs (addMillis now ttl) ∧ unixMs (addMillis now ttl) ≤ int64Max ∧
    Returns T m (some (addMillis now ttl))
      (some (addMillis T (millisBetween (timepointFromUnixMs (unixMs (addMillis now ttl))) T))) := by
  have hnow := h.now_clock
  have hle := h.le
  have hin : InI64 (now + ttl * nanosPerMilli) := by
    simp only [InI64, InClock, int64Min, int64Max, nanosPerMilli] at *
    omega
  rw [addMillis_of_inI64 hin, unixMs]
  obtain ⟨hpos, -⟩ := tdiv_nanosPerMilli (now + ttl * nanosPerMilli)
  have hq : 0 < (now + ttl * nanosPerMilli).tdiv nanosPerMilli ∧
      (now + ttl * nanosPerMilli).tdiv nanosPerMilli * nanosPerMilli ≤ int64Max := by
    simp only [InClock, int64Max, nanosPerMilli] at *
    omega
  refine ⟨hq.1, by simp only [int64Max, nanosPerMilli] at *; omega, ?_⟩
  rw [pxat_deadline h.restart_clock hq.1 hq.2]
  rcases h.precise with ⟨rfl, hdvd, hT⟩ | hm
  · left
    have hsum := Int.dvd_add hdvd (Int.dvd_mul_left ttl nanosPerMilli)
    rw [tdiv_mul_of_dvd hsum, tdiv_mul_of_dvd (Int.dvd_sub hsum hT)]
    omega
  · right
    obtain ⟨hpos', hneg'⟩ := tdiv_nanosPerMilli
      ((now + ttl * nanosPerMilli).tdiv nanosPerMilli * nanosPerMilli - T)
    simp only [InClock, nanosPerMilli] at *
    exact ⟨by omega, fun _ => by omega, fun _ => by omega⟩

/-! ## The options of `SET` and its record -/

namespace Commands

/-- What the option loop guarantees. -/
structure SetOptions.Positive (o : SetOptions) : Prop where
  ttl : ∀ t, o.ttl = some t → 0 < t
  pxat : ∀ p, o.pxat = some p → 0 < p ∧ InI64 p

/-- The deadline is representable. -/
structure SetOptions.InRange (o : SetOptions) (now : ℤ) : Prop where
  ttl : ∀ t, o.ttl = some t → now + t * nanosPerMilli ≤ int64Max
  pxat : ∀ p, o.pxat = some p → p * nanosPerMilli ≤ int64Max

/-- What is parsed is in range. -/
theorem inI64_of_parseI64 {s : Bytes} {i : ℤ} (h : parseI64 s = some i) : InI64 i := by
  simp only [parseI64] at h
  split_ifs at h
  exact inI64_of_wholeI64 h

/-- An expiry option that is accepted is positive. -/
theorem SetOptions.Positive.setExpiry {o o' : SetOptions} {option arg : Bytes} (h : o.Positive)
    (hset : Commands.setExpiry o option arg = .ok o') : o'.Positive := by
  have hin : ∀ {o₁}, withExpiry o option arg = some o₁ → ∀ p, o₁.pxat = some p → InI64 p := by
    intro o₁ hwith p hp
    unfold withExpiry at hwith
    split_ifs at hwith
    · cases hwith
      exact (h.pxat p hp).2
    · cases hwith
      exact (h.pxat p hp).2
    · obtain ⟨parsed, hparse, rfl⟩ := Option.map_eq_some_iff.mp hwith
      cases hp
      exact inI64_wrap64 _
    · obtain ⟨parsed, hparse, rfl⟩ := Option.map_eq_some_iff.mp hwith
      cases hp
      exact inI64_of_parseI64 hparse
  unfold Commands.setExpiry at hset
  split at hset
  · cases hset
  · next o₁ hwith =>
    split_ifs at hset with hany
    cases hset
    simp only [Bool.or_eq_true, not_or, Option.any_eq_true, decide_eq_true_eq, not_exists,
      not_and, not_le] at hany
    exact ⟨hany.1, fun p hp => ⟨hany.2 p hp, hin hwith p hp⟩⟩

/-- What the option loop returns is positive. -/
theorem positive_of_parse {rest : List Bytes} {o o' : SetOptions} (h : o.Positive)
    (hparse : parseSetOptions rest o = .ok o') : o'.Positive := by
  fun_induction parseSetOptions rest o with
  | case1 o => cases hparse; exact h
  | case2 => cases hparse
  | case3 o arg rest option hnx hxx ih => exact ih ⟨h.ttl, h.pxat⟩ hparse
  | case4 => cases hparse
  | case5 o arg rest option hnx hxx hcond ih => exact ih ⟨h.ttl, h.pxat⟩ hparse
  | case6 => cases hparse
  | case7 => cases hparse
  | case8 => cases hparse
  | case9 o arg option hnx hxx hopt value rest hnone o₁ hset ih => exact ih (h.setExpiry hset) hparse
  | case10 => cases hparse

/-- No option is a bad one. -/
theorem positive_empty : SetOptions.Positive {} := ⟨by simp, by simp⟩

/-- The option of a record is read back. -/
theorem parse_pxat {p : ℤ} (hp : 0 < p) (hin : InI64 p) :
    parseSetOptions [ascii "PXAT", printInt p] {} = .ok { pxat := some p } := by
  have hup : toUpperAscii (ascii "PXAT") = ascii "PXAT" := by decide
  have hexp : setExpiry {} (ascii "PXAT") (printInt p) = .ok { pxat := some p } := by
    have hneg : ¬ p ≤ 0 := by omega
    simp [setExpiry, withExpiry, parseI64_printInt hin, hneg, ascii]
  simp only [parseSetOptions, hup]
  rw [if_neg (by decide), if_neg (by decide), if_pos (by decide)]
  simp [hexp]

/-- **The record of a `SET`** is an unconditional `SET` whose deadline returns. -/
theorem setRecord_spec {T m now : ℤ} (key value : Bytes) {o : SetOptions} (ho : o.Positive)
    (h : (o.ttl = none ∧ o.pxat = none) ∨ (Timely T m now ∧ o.InRange now)) :
    ∃ rest o', setRecord key value o now = ascii "SET" :: key :: value :: rest ∧
      parseSetOptions rest {} = .ok o' ∧ o'.condition = .always ∧
      Returns T m ((o.effectiveTtl now).map (addMillis now))
        ((o'.effectiveTtl T).map (addMillis T)) := by
  rcases h with ⟨httl, hpxat⟩ | ⟨htime, hrange⟩
  · exact ⟨[], {}, by simp [setRecord, SetOptions.effectiveTtl, httl, hpxat], rfl, rfl,
      by simp [SetOptions.effectiveTtl, httl, hpxat, Returns]⟩
  cases hpxat : o.pxat with
  | some p =>
    obtain ⟨hp, hin⟩ := ho.pxat p hpxat
    refine ⟨[ascii "PXAT", printInt p], { pxat := some p }, ?_, parse_pxat hp hin, rfl, ?_⟩
    · simp [setRecord, SetOptions.effectiveTtl, hpxat]
    · simp only [SetOptions.effectiveTtl, hpxat, Option.map_some]
      exact returns_pxat htime hp (hrange.pxat p hpxat)
  | none =>
    cases httl : o.ttl with
    | none =>
      exact ⟨[], {}, by simp [setRecord, SetOptions.effectiveTtl, httl, hpxat], rfl, rfl,
        by simp [SetOptions.effectiveTtl, httl, hpxat, Returns]⟩
    | some ttl =>
      obtain ⟨hpos, hmax, hret⟩ := returns_ttl htime (ho.ttl ttl httl) (hrange.ttl ttl httl)
      refine ⟨[ascii "PXAT", pxatArgFromTtl now ttl], { pxat := some (unixMs (addMillis now ttl)) },
        ?_, parse_pxat hpos ⟨by simp only [int64Min]; omega, hmax⟩, rfl, ?_⟩
      · simp [setRecord, SetOptions.effectiveTtl, hpxat, httl]
      · simpa only [SetOptions.effectiveTtl, hpxat, httl, Option.map_some] using hret

end Commands

end VeloxDb
