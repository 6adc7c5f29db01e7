import VeloxDb.Recovery.Deadlines
import VeloxDb.Storage.Counters

/-!
# Expiry arguments

Seconds become milliseconds and milliseconds become ticks of the clock, all in 64-bit arithmetic.
Only one of these products is checked, for positive numbers, and `SET` does not take the outcome of
the check as an error. The theorems say for which arguments the arithmetic is exact: a number of
seconds that fits as milliseconds, and a deadline that fits as a time point. The functions that
multiply stand here once more with the product made visible, so that an overflow is a fault.
-/

namespace VeloxDb

open Decimal Util

/-- Wrapping moves a number by a multiple of `2 ^ 64`. -/
theorem exists_wrap64_eq (x : ℤ) : ∃ j : ℤ, wrap64 x = x + j * 2 ^ 64 := by
  have h : wrap64 x % 2 ^ 64 = x % 2 ^ 64 := Int.bmod_emod
  exact ⟨(wrap64 x - x) / 2 ^ 64, by omega⟩

namespace Commands

variable {s : Bytes} {x : ℤ}

/-! ## Scaling -/

/-- The test of `parse_ttl_ms`: the product is not evaluated. -/
def TtlRefused (x multiplier : ℤ) : Prop := x > 0 ∧ x > int64Max / multiplier

theorem parseTtlMs_of_refused {multiplier : ℤ} (hx : parseI64 s = some x)
    (href : TtlRefused x multiplier) : parseTtlMs s multiplier = none := by
  simp only [parseTtlMs, hx, Option.bind_eq_bind, Option.bind_some]
  exact if_pos href

theorem parseTtlMs_of_not_refused {multiplier : ℤ} (hx : parseI64 s = some x)
    (href : ¬ TtlRefused x multiplier) : parseTtlMs s multiplier = some (wrap64 (x * multiplier)) := by
  simp only [parseTtlMs, hx, Option.bind_eq_bind, Option.bind_some]
  exact if_neg href

/-- `parse_ttl_ms` with its faults: the product is evaluated only behind the test. -/
def checkedTtlMs (value : Bytes) (multiplier : ℤ) : Checked (Option ℤ) :=
  match parseI64 value with
  | none => return none
  | some parsed =>
    if parsed > 0 ∧ parsed > int64Max / multiplier then return none
    else do
      let ms ← Checked.int64 (parsed * multiplier)
      return some ms

/-- The `EXAT` branch of `SET` with its faults. -/
def checkedExat (value : Bytes) : Checked (Option ℤ) :=
  match parseI64 value with
  | none => return none
  | some parsed => do
    let ms ← Checked.int64 (parsed * 1000)
    return some ms

/-- A product that is evaluated is a fault exactly where it does not fit, and otherwise it is what the
machine leaves. -/
theorem int64_bind_eq_iff {y : ℤ} :
    (do let ms ← Checked.int64 y; return some ms : Checked (Option ℤ)) = .ok (some (wrap64 y)) ↔
      InI64 y := by
  by_cases hin : InI64 y
  · rw [int64_eq_of_inI64 hin, wrap64_of_inI64 hin]
    exact iff_of_true rfl hin
  · have hwrapped : ¬ (-2 ^ 63 ≤ y ∧ y < 2 ^ 63) := by
      simp only [InI64, int64Min, int64Max] at hin
      omega
    rw [Checked.int64_of_wrapped hwrapped]
    exact iff_of_false (fun h => by cases h) hin

/-- `parse_ttl_ms` meets no fault exactly if it refuses the number or the product fits. -/
theorem checkedTtlMs_eq_iff {multiplier : ℤ} (hx : parseI64 s = some x) :
    checkedTtlMs s multiplier = .ok (parseTtlMs s multiplier) ↔
      (¬ TtlRefused x multiplier → InI64 (x * multiplier)) := by
  by_cases href : TtlRefused x multiplier
  · rw [parseTtlMs_of_refused hx href]
    refine iff_of_true ?_ fun h => absurd href h
    simp only [checkedTtlMs, hx]
    exact if_pos href
  · rw [parseTtlMs_of_not_refused hx href]
    have hlet : ¬ (x > 0 ∧ x > int64Max / multiplier) := href
    simp only [checkedTtlMs, hx]
    rw [if_neg hlet, int64_bind_eq_iff]
    exact ⟨fun h _ => h, fun h => h href⟩

/-- The milliseconds that a command obtains are the exact product or it replies with an error, and
the function that computes them meets no fault. -/
structure ScaledExactly (x multiplier : ℤ) (checked : Checked (Option ℤ)) (obtained : Option ℤ)
    (refused : Prop) : Prop where
  exact : obtained = some (x * multiplier) ∨ refused
  noFault : checked = .ok obtained

/-- A product that fits is obtained. -/
theorem scaledExactly_of_inI64 {multiplier : ℤ} (hx : parseI64 s = some x)
    (hin : InI64 (x * multiplier)) (hguard : ¬ TtlRefused x multiplier) (refused : Prop) :
    ScaledExactly x multiplier (checkedTtlMs s multiplier) (parseTtlMs s multiplier) refused := by
  refine ⟨.inl ?_, (checkedTtlMs_eq_iff hx).mpr fun _ => hin⟩
  rw [parseTtlMs_of_not_refused hx hguard, wrap64_of_inI64 hin]

/-- A number of milliseconds is not scaled. -/
theorem scaledExactly_one (hx : parseI64 s = some x) (refused : Prop) :
    ScaledExactly x 1 (checkedTtlMs s 1) (parseTtlMs s 1) refused := by
  have hin : InI64 (x * 1) := by simpa using inI64_of_parseI64 hx
  refine scaledExactly_of_inI64 hx hin (fun hr => ?_) refused
  simp only [TtlRefused, InI64, int64Max] at hr hin
  omega

/-- A number of seconds that fits as milliseconds is scaled. -/
theorem scaledExactly_thousand (hx : parseI64 s = some x) (hin : InI64 (x * 1000)) (refused : Prop) :
    ScaledExactly x 1000 (checkedTtlMs s 1000) (parseTtlMs s 1000) refused := by
  refine scaledExactly_of_inI64 hx hin (fun hr => ?_) refused
  simp only [TtlRefused, InI64, int64Max] at hr hin
  omega

/-- `EXPIRE` replies with an error where the product is too large. -/
theorem expireImpl_of_refused {multiplier : ℤ} (hx : parseI64 s = some x)
    (href : TtlRefused x multiplier) (commandName : Bytes) (e : StorageEngine) (now : TimePoint)
    (name key : Bytes) :
    (expireImpl multiplier commandName e now [name, key, s]).result.isError = true := by
  simp only [expireImpl, parseTtlMs_of_refused hx href]
  rfl

/-- `EXPIRE` scales exactly unless the product is too small. -/
theorem expire_scaled_iff (hx : parseI64 s = some x) :
    ScaledExactly x 1000 (checkedTtlMs s 1000) (parseTtlMs s 1000) (∀ e now name key,
      (expireImpl 1000 (ascii "EXPIRE") e now [name, key, s]).result.isError = true) ↔
    int64Min ≤ x * 1000 := by
  constructor
  · intro h
    by_cases href : TtlRefused x 1000
    · simp only [TtlRefused, int64Min] at href ⊢
      omega
    · exact ((checkedTtlMs_eq_iff hx).mp h.noFault href).1
  · intro hmin
    by_cases hmax : x * 1000 ≤ int64Max
    · exact scaledExactly_thousand hx ⟨hmin, hmax⟩ _
    · have href : TtlRefused x 1000 := by
        simp only [TtlRefused, int64Max] at hmax ⊢
        omega
      exact ⟨.inr (expireImpl_of_refused hx href _),
        (checkedTtlMs_eq_iff hx).mpr fun h => absurd href h⟩

/-- `SET` goes on without an expiry where the product is too large. -/
theorem parseSetOptions_ex_of_refused (hx : parseI64 s = some x) (href : TtlRefused x 1000) :
    parseSetOptions [ascii "EX", s] {} = .ok {} := by
  have hup : toUpperAscii (ascii "EX") = ascii "EX" := by decide
  simp only [parseSetOptions, hup]
  rw [if_neg (by decide), if_neg (by decide), if_pos (by decide)]
  simp [setExpiry, withExpiry, parseTtlMs_of_refused hx href]

/-- `SET EX` scales exactly only where the product fits: one that is too large is no error. -/
theorem setEx_scaled_iff (hx : parseI64 s = some x) :
    ScaledExactly x 1000 (checkedTtlMs s 1000) (parseTtlMs s 1000) (∀ e now name key value,
      (Commands.set e now [name, key, value, ascii "EX", s]).result.isError = true) ↔
    InI64 (x * 1000) := by
  refine ⟨fun h => ?_, fun hin => scaledExactly_thousand hx hin _⟩
  by_cases href : TtlRefused x 1000
  · -- nothing is obtained, and a fresh engine takes the value
    rcases h.exact with hexact | herror
    · rw [parseTtlMs_of_refused hx href] at hexact
      cases hexact
    · have hset := herror { setup := ⟨{}, {}, fun _ => 0⟩ } 0 [] [] []
      simp only [Commands.set, parseSetOptions_ex_of_refused hx href] at hset
      exact absurd hset (by decide)
  · exact (checkedTtlMs_eq_iff hx).mp h.noFault href

/-- `SET EXAT` scales exactly only where the product fits: it is not checked at all. -/
theorem exat_scaled_iff (hx : parseI64 s = some x) :
    ScaledExactly x 1000 (checkedExat s) ((withExpiry {} (ascii "EXAT") s).bind SetOptions.pxat)
      (∀ e now name key value,
        (Commands.set e now [name, key, value, ascii "EXAT", s]).result.isError = true) ↔
    InI64 (x * 1000) := by
  have hobtained : (withExpiry {} (ascii "EXAT") s).bind SetOptions.pxat = some (wrap64 (x * 1000)) := by
    simp [withExpiry, hx, ascii]
  have hchecked : checkedExat s = .ok (some (wrap64 (x * 1000))) ↔ InI64 (x * 1000) := by
    simp only [checkedExat, hx]
    exact int64_bind_eq_iff
  rw [hobtained]
  refine ⟨fun h => hchecked.mp h.noFault, fun hin => ⟨.inl ?_, hchecked.mpr hin⟩⟩
  rw [wrap64_of_inI64 hin]

end Commands

open Commands in
/-- **Expiry arguments are scaled exactly or rejected**, exactly where the number of seconds fits as
a number of milliseconds; for `EXPIRE` it may also be too large, which is an error. -/
theorem expiry_scaled_iff {s : Bytes} {x : ℤ} (hx : parseI64 s = some x) :
    (ScaledExactly x 1000 (checkedTtlMs s 1000) (parseTtlMs s 1000) (∀ e now name key,
        (expireImpl 1000 (ascii "EXPIRE") e now [name, key, s]).result.isError = true) ↔
      int64Min ≤ x * 1000) ∧
    ScaledExactly x 1 (checkedTtlMs s 1) (parseTtlMs s 1) (∀ e now name key,
        (expireImpl 1 (ascii "PEXPIRE") e now [name, key, s]).result.isError = true) ∧
    (ScaledExactly x 1000 (checkedTtlMs s 1000) (parseTtlMs s 1000) (∀ e now name key value,
        (Commands.set e now [name, key, value, ascii "EX", s]).result.isError = true) ↔
      InI64 (x * 1000)) ∧
    ScaledExactly x 1 (checkedTtlMs s 1) (parseTtlMs s 1) (∀ e now name key value,
        (Commands.set e now [name, key, value, ascii "PX", s]).result.isError = true) ∧
    (ScaledExactly x 1000 (checkedExat s) ((withExpiry {} (ascii "EXAT") s).bind SetOptions.pxat)
        (∀ e now name key value,
          (Commands.set e now [name, key, value, ascii "EXAT", s]).result.isError = true) ↔
      InI64 (x * 1000)) :=
  ⟨expire_scaled_iff hx, scaledExactly_one hx _, setEx_scaled_iff hx, scaledExactly_one hx _,
    exat_scaled_iff hx⟩

open Commands in
theorem expiry_scaled_ten :
    parseI64 (ascii "10") = some 10 ∧ parseTtlMs (ascii "10") 1000 = some 10000 ∧
      ScaledExactly 10 1000 (checkedTtlMs (ascii "10") 1000) (parseTtlMs (ascii "10") 1000)
        (∀ e now name key,
          (expireImpl 1000 (ascii "EXPIRE") e now [name, key, ascii "10"]).result.isError = true) := by
  have hx : parseI64 (ascii "10") = some 10 := by decide
  exact ⟨hx, by decide, (expiry_scaled_iff hx).1.mpr (by decide)⟩

open Commands in
/-- A number of seconds far in the past becomes 616 ms to come, one too large for `EX` becomes no
expiry at all, and one too large for `EXAT` becomes 384 ms after the epoch. -/
theorem expiry_scaling_wraps :
    parseI64 (ascii "-18446744073709551") = some (-18446744073709551) ∧
      parseTtlMs (ascii "-18446744073709551") 1000 = some 616 ∧
      (expireImpl 1000 (ascii "EXPIRE") (({ setup := ⟨{}, {}, fun _ => 0⟩ } : StorageEngine).set
        (ascii "k") (ascii "v") none .always 0).2 0
          (["EXPIRE", "k", "-18446744073709551"].map ascii)).result = integer 1 ∧
      parseSetOptions (["EX", "9223372036854776"].map ascii) {} = .ok {} ∧
      parseSetOptions (["EXAT", "18446744073709552"].map ascii) {} = .ok { pxat := some 384 } := by
  decide +kernel

/-! ## Deadlines -/

/-- `d` is `exact` but for a fraction of a millisecond that was cut off. -/
def Truncates (exact d : ℤ) : Prop := exact - nanosPerMilli < d ∧ d ≤ exact

/-- The key is visible, and its deadline is `exact`. -/
def StoredDeadline (now exact : ℤ) (key : Bytes) (e : StorageEngine) : Prop :=
  ∃ x d, e.keyspace.visible now key = some x ∧ x.expiry = some d ∧ Truncates exact d

/-- After a command that was to set the deadline `exact`: the key is visible, its deadline is that
one, and the last argument of the record, the timestamp in milliseconds, is positive and denotes it.
-/
structure DeadlineKept (now exact : ℤ) (key : Bytes) (eff : Effect) : Prop where
  stored : StoredDeadline now exact key eff.storage
  logged : ∃ record text m, eff.record = some record ∧ record.getLast? = some text ∧
    parseI64 text = some m ∧ 0 < m ∧ Truncates exact (m * nanosPerMilli)

theorem addMillis_eq (t ms : ℤ) : addMillis t ms = wrap64 (t + ms * nanosPerMilli) := by
  rw [addMillis, wrap64, wrap64, Int.add_bmod_bmod, wrap64]

/-- A deadline that was computed as `now + ttl`. -/
theorem kept_addMillis_iff {now ttl : ℤ} (hnow : 0 ≤ now) (httl : 0 < ttl) :
    (now < addMillis now ttl ∧ Truncates (now + ttl * nanosPerMilli) (addMillis now ttl)) ↔
      now + ttl * nanosPerMilli ≤ int64Max := by
  rw [addMillis_eq]
  constructor
  · rintro ⟨-, hlo, hhi⟩
    obtain ⟨j, hj⟩ := exists_wrap64_eq (now + ttl * nanosPerMilli)
    have hin := (inI64_wrap64 (now + ttl * nanosPerMilli)).2
    simp only [nanosPerMilli] at *
    omega
  · intro hmax
    have hin : InI64 (now + ttl * nanosPerMilli) := by
      simp only [InI64, int64Min, int64Max, nanosPerMilli] at *
      omega
    rw [wrap64_of_inI64 hin]
    simp only [Truncates, nanosPerMilli]
    omega

/-- The deadline that `SET … PXAT p` computes is representable, and the way to it is, and it is a
millisecond off at least. -/
structure PxatFits (now p : ℤ) : Prop where
  distance : p * nanosPerMilli - now ≤ int64Max
  apart : now + nanosPerMilli ≤ p * nanosPerMilli
  deadline : now + (p * nanosPerMilli - now) / nanosPerMilli * nanosPerMilli ≤ int64Max

/-- A deadline that was computed from a timestamp by way of the distance from now. -/
theorem kept_pxat_iff {now p : ℤ} (hnow : 0 ≤ now) (hlate : now < p * nanosPerMilli) :
    (now < addMillis now (millisBetween (timepointFromUnixMs p) now) ∧
        Truncates (p * nanosPerMilli) (addMillis now (millisBetween (timepointFromUnixMs p) now))) ↔
      PxatFits now p := by
  have hdist : wrap64 (timepointFromUnixMs p - now) = wrap64 (p * nanosPerMilli - now) := by
    rw [timepointFromUnixMs, wrap64, wrap64, Int.bmod_sub_bmod, wrap64]
  rw [addMillis_eq, millisBetween, hdist]
  obtain ⟨hpos, hneg⟩ := tdiv_nanosPerMilli (wrap64 (p * nanosPerMilli - now))
  constructor
  · rintro ⟨hvisible, hlo, hhi⟩
    -- the distance has not wrapped around: what it would take to make up for it does not fit
    obtain ⟨j, hj⟩ := exists_wrap64_eq (p * nanosPerMilli - now)
    have hw := inI64_wrap64 (p * nanosPerMilli - now)
    obtain ⟨k, hk⟩ := exists_wrap64_eq (now +
      (wrap64 (p * nanosPerMilli - now)).tdiv nanosPerMilli * nanosPerMilli)
    have hd := inI64_wrap64 (now +
      (wrap64 (p * nanosPerMilli - now)).tdiv nanosPerMilli * nanosPerMilli)
    generalize (wrap64 (p * nanosPerMilli - now)).tdiv nanosPerMilli = q at *
    generalize wrap64 (p * nanosPerMilli - now) = w at *
    simp only [InI64, int64Min, int64Max, nanosPerMilli] at *
    have hj0 : j = 0 := by omega
    have hk0 : k = 0 := by omega
    refine ⟨?_, ?_, ?_⟩ <;> simp only [int64Max, nanosPerMilli] <;> omega
  · rintro ⟨hdistance, hapart, hdeadline⟩
    have hin : InI64 (p * nanosPerMilli - now) := by
      simp only [InI64, int64Min, int64Max, nanosPerMilli] at *
      omega
    rw [wrap64_of_inI64 hin] at hpos ⊢
    rw [Int.tdiv_eq_ediv_of_nonneg (by omega)] at hpos ⊢
    have hin' : InI64 (now + (p * nanosPerMilli - now) / nanosPerMilli * nanosPerMilli) := by
      simp only [InI64, int64Min, int64Max, nanosPerMilli] at *
      omega
    rw [wrap64_of_inI64 hin']
    simp only [Truncates, nanosPerMilli] at *
    omega

namespace Commands

variable {e e' : StorageEngine} {key s : Bytes} {now d exact : ℤ}

/-- An item that was stored with a deadline is visible as long as that has not come. -/
theorem stored_iff {y : Option Item} (hnone : y = none → d ≤ now)
    (hsome : ∀ x, y = some x → x.expiry = some d)
    (hb : StorageEngine.Becomes e e' (Function.update e.keyspace key y)) :
    StoredDeadline now exact key e' ↔ now < d ∧ Truncates exact d := by
  rw [StoredDeadline, hb.keyspace]
  constructor
  · rintro ⟨x, d', hv, hd', htrunc⟩
    obtain ⟨hy, hlive⟩ := Keyspace.visible_eq_some.mp hv
    rw [Function.update_self] at hy
    obtain rfl : d = d' := Option.some.inj ((hsome x hy).symm.trans hd')
    refine ⟨?_, htrunc⟩
    simpa [Item.expired, hd'] using hlive
  · rintro ⟨hlt, htrunc⟩
    cases y with
    | none => exact absurd (hnone rfl) (by omega)
    | some x =>
      refine ⟨x, d, Keyspace.visible_eq_some.mpr ⟨Function.update_self .., ?_⟩, hsome x rfl, htrunc⟩
      simpa [Item.expired, hsome x rfl] using hlt

theorem stored_expiredAt_iff {x : Item} (hb : StorageEngine.Becomes e e'
      (Function.update e.keyspace key (StorageEngine.expiredAt d now (some x)))) :
    StoredDeadline now exact key e' ↔ now < d ∧ Truncates exact d := by
  refine stored_iff (fun hnone => ?_) (fun y hy => ?_) hb
  · simpa [StorageEngine.expiredAt] using hnone
  · rw [StorageEngine.expiredAt] at hy
    split_ifs at hy
    cases hy
    rfl

/-- The timestamp that is logged for a time to live. -/
theorem logged_ttl {ttl : ℤ} (hnow : 0 ≤ now) (httl : 0 < ttl)
    (hmax : now + ttl * nanosPerMilli ≤ int64Max) :
    ∃ m, parseI64 (pxatArgFromTtl now ttl) = some m ∧ 0 < m ∧
      Truncates (now + ttl * nanosPerMilli) (m * nanosPerMilli) := by
  have hin : InI64 (now + ttl * nanosPerMilli) := by
    simp only [InI64, int64Min, int64Max, nanosPerMilli] at *
    omega
  obtain ⟨hpos, -⟩ := tdiv_nanosPerMilli (now + ttl * nanosPerMilli)
  refine ⟨unixMs (now + ttl * nanosPerMilli), ?_, ?_, ?_⟩
  · rw [pxatArgFromTtl, addMillis_of_inI64 hin]
    refine parseI64_printInt ?_
    simp only [unixMs, InI64, int64Min, int64Max, nanosPerMilli] at *
    omega
  · simp only [unixMs, nanosPerMilli] at *
    omega
  · simp only [Truncates, unixMs, nanosPerMilli] at *
    omega

/-- `EXPIRE` and `PEXPIRE`. -/
theorem expireImpl_kept_iff {multiplier ttl : ℤ} (h : e.WF) (hnow : 0 ≤ now) (httl : 0 < ttl)
    (hparse : parseTtlMs s multiplier = some ttl) {x : Item}
    (hkey : e.keyspace.visible now key = some x) (commandName name : Bytes) :
    DeadlineKept now (now + ttl * nanosPerMilli) key
        (expireImpl multiplier commandName e now [name, key, s]) ↔
      now + ttl * nanosPerMilli ≤ int64Max := by
  obtain ⟨e', hexpire, hb⟩ := StorageEngine.expireAt_spec h key (addMillis now ttl) now
  rw [hkey] at hexpire hb
  have heff : expireImpl multiplier commandName e now [name, key, s]
      = ⟨e', integer 1, some [ascii "PEXPIREAT", key, pxatArgFromTtl now ttl]⟩ := by
    simp [expireImpl, hparse, StorageEngine.expire_of_pos e key httl, hexpire]
  have hstored : StoredDeadline now (now + ttl * nanosPerMilli) key e' ↔ now < addMillis now ttl ∧
      Truncates (now + ttl * nanosPerMilli) (addMillis now ttl) :=
    stored_expiredAt_iff hb
  rw [heff]
  constructor
  · intro hkept
    exact (kept_addMillis_iff hnow httl).mp (hstored.mp hkept.stored)
  · intro hmax
    obtain ⟨m, hm, hpos, htrunc⟩ := logged_ttl hnow httl hmax
    exact ⟨hstored.mpr ((kept_addMillis_iff hnow httl).mpr hmax),
      _, _, m, rfl, rfl, hm, hpos, htrunc⟩

theorem pexpireat_kept_iff {p : ℤ} (h : e.WF) (hnow : 0 ≤ now) (hparse : parseI64 s = some p)
    (hlate : now < p * nanosPerMilli) {x : Item} (hkey : e.keyspace.visible now key = some x)
    (name : Bytes) :
    DeadlineKept now (p * nanosPerMilli) key (pexpireat e now [name, key, s]) ↔
      p * nanosPerMilli ≤ int64Max := by
  obtain ⟨e', hexpire, hb⟩ := StorageEngine.expireAt_spec h key (timepointFromUnixMs p) now
  rw [hkey] at hexpire hb
  have heff : pexpireat e now [name, key, s] = ⟨e', integer 1, some [name, key, s]⟩ := by
    simp [pexpireat, hparse, hexpire]
  have hstored : StoredDeadline now (p * nanosPerMilli) key e' ↔
      now < wrap64 (p * nanosPerMilli) ∧
        Truncates (p * nanosPerMilli) (wrap64 (p * nanosPerMilli)) := stored_expiredAt_iff hb
  rw [heff]
  constructor
  · intro hkept
    obtain ⟨-, hlo, hhi⟩ := hstored.mp hkept.stored
    obtain ⟨j, hj⟩ := exists_wrap64_eq (p * nanosPerMilli)
    have hin := (inI64_wrap64 (p * nanosPerMilli)).2
    simp only [nanosPerMilli] at *
    omega
  · intro hmax
    have hin : InI64 (p * nanosPerMilli) := by
      simp only [InI64, int64Min, int64Max, nanosPerMilli] at *
      omega
    have htrunc : Truncates (p * nanosPerMilli) (p * nanosPerMilli) := by
      simp only [Truncates, nanosPerMilli]
      omega
    have hpos : 0 < p := by
      simp only [nanosPerMilli] at hlate
      omega
    refine ⟨hstored.mpr ?_, _, s, p, rfl, rfl, hparse, hpos, htrunc⟩
    rw [wrap64_of_inI64 hin]
    exact ⟨hlate, htrunc⟩

/-- What `SET` has done where it replied with `OK`. -/
theorem set_of_replied (h : e.WF) {value : Bytes} {options : List Bytes} {o : SetOptions}
    (hparse : parseSetOptions options {} = .ok o) {name : Bytes}
    (hok : (Commands.set e now (name :: key :: value :: options)).result = ok) :
    ∃ e', Commands.set e now (name :: key :: value :: options)
        = ⟨e', ok, some (setRecord key value o now)⟩ ∧
      StorageEngine.Becomes e e' (Function.update e.keyspace key
        (some ⟨value, (o.effectiveTtl now).map (addMillis now)⟩)) := by
  simp only [Commands.set, hparse] at hok ⊢
  by_cases hcode : (e.set key value (o.effectiveTtl now) o.condition now).1.code = .ok
  · refine ⟨_, ?_, (StorageEngine.set_of_ok h hcode).2.2⟩
    simp [hcode]
  · exfalso
    split_ifs at hok with hnot
    · have hresponse : Resp.nullBulk = ok.response := congrArg CommandResult.response hok
      exact absurd hresponse (by decide)
    · have herr := congrArg CommandResult.isError hok
      simp [CommandResult.isError_err] at herr

/-- `SET` with a time to live. -/
theorem set_ttl_kept_iff (h : e.WF) (hnow : 0 ≤ now) {value : Bytes} {options : List Bytes}
    {o : SetOptions} (hparse : parseSetOptions options {} = .ok o) {ttl : ℤ} (httl : o.ttl = some ttl)
    (hpxat : o.pxat = none) {name : Bytes}
    (hok : (Commands.set e now (name :: key :: value :: options)).result = ok) :
    DeadlineKept now (now + ttl * nanosPerMilli) key
        (Commands.set e now (name :: key :: value :: options)) ↔
      now + ttl * nanosPerMilli ≤ int64Max := by
  have hpos : 0 < ttl := (positive_of_parse positive_empty hparse).ttl ttl httl
  obtain ⟨e', heff, hb⟩ := set_of_replied h hparse hok
  have heffective : o.effectiveTtl now = some ttl := by simp [SetOptions.effectiveTtl, hpxat, httl]
  rw [heffective] at hb
  have hstored : StoredDeadline now (now + ttl * nanosPerMilli) key e' ↔ now < addMillis now ttl ∧
      Truncates (now + ttl * nanosPerMilli) (addMillis now ttl) :=
    stored_iff (fun hnone => by cases hnone) (fun x hx => by cases hx; rfl) hb
  rw [heff]
  constructor
  · intro hkept
    exact (kept_addMillis_iff hnow hpos).mp (hstored.mp hkept.stored)
  · intro hmax
    obtain ⟨m, hm, hmpos, htrunc⟩ := logged_ttl hnow hpos hmax
    refine ⟨hstored.mpr ((kept_addMillis_iff hnow hpos).mpr hmax), _, _, m, rfl, ?_, hm, hmpos,
      htrunc⟩
    simp [setRecord, heffective, hpxat]

/-- `SET` with a timestamp. -/
theorem set_pxat_kept_iff (h : e.WF) (hnow : 0 ≤ now) {value : Bytes} {options : List Bytes}
    {o : SetOptions} (hparse : parseSetOptions options {} = .ok o) {p : ℤ} (hpxat : o.pxat = some p)
    (hlate : now < p * nanosPerMilli) {name : Bytes}
    (hok : (Commands.set e now (name :: key :: value :: options)).result = ok) :
    DeadlineKept now (p * nanosPerMilli) key
        (Commands.set e now (name :: key :: value :: options)) ↔ PxatFits now p := by
  obtain ⟨hpos, hin⟩ : 0 < p ∧ InI64 p := (positive_of_parse positive_empty hparse).pxat p hpxat
  obtain ⟨e', heff, hb⟩ := set_of_replied h hparse hok
  have heffective : o.effectiveTtl now = some (millisBetween (timepointFromUnixMs p) now) := by
    simp [SetOptions.effectiveTtl, hpxat]
  rw [heffective] at hb
  have hstored : StoredDeadline now (p * nanosPerMilli) key e' ↔
      now < addMillis now (millisBetween (timepointFromUnixMs p) now) ∧ Truncates (p * nanosPerMilli)
        (addMillis now (millisBetween (timepointFromUnixMs p) now)) :=
    stored_iff (fun hnone => by cases hnone) (fun x hx => by cases hx; rfl) hb
  rw [heff]
  constructor
  · intro hkept
    exact (kept_pxat_iff hnow hlate).mp (hstored.mp hkept.stored)
  · intro hfits
    refine ⟨hstored.mpr ((kept_pxat_iff hnow hlate).mpr hfits), _, _, p, rfl, ?_,
      parseI64_printInt hin, hpos, ?_⟩
    · simp [setRecord, heffective, hpxat]
    · simp only [Truncates, nanosPerMilli]
      omega

end Commands

open Commands in
/-- **A deadline to come is kept**, in the store and in the log, exactly where it is representable
as a time of the clock; with `PXAT` it must be a millisecond off, too, for the distance to it is
truncated. -/
theorem deadline_kept_iff {e : StorageEngine} {now : TimePoint} (h : e.WF) (hnow : 0 ≤ now)
    (name key : Bytes) :
    (∀ s ttl multiplier commandName, parseTtlMs s multiplier = some ttl → 0 < ttl →
      (e.keyspace.visible now key).isSome →
      (DeadlineKept now (now + ttl * nanosPerMilli) key
          (expireImpl multiplier commandName e now [name, key, s]) ↔
        now + ttl * nanosPerMilli ≤ int64Max)) ∧
    (∀ s p, parseI64 s = some p → now < p * nanosPerMilli → (e.keyspace.visible now key).isSome →
      (DeadlineKept now (p * nanosPerMilli) key (pexpireat e now [name, key, s]) ↔
        p * nanosPerMilli ≤ int64Max)) ∧
    (∀ value options o, parseSetOptions options {} = .ok o →
      (Commands.set e now (name :: key :: value :: options)).result = ok →
      (∀ ttl, o.ttl = some ttl → o.pxat = none →
        (DeadlineKept now (now + ttl * nanosPerMilli) key
            (Commands.set e now (name :: key :: value :: options)) ↔
          now + ttl * nanosPerMilli ≤ int64Max)) ∧
      ∀ p, o.pxat = some p → now < p * nanosPerMilli →
        (DeadlineKept now (p * nanosPerMilli) key
            (Commands.set e now (name :: key :: value :: options)) ↔ PxatFits now p)) := by
  refine ⟨?_, ?_, ?_⟩
  · intro s ttl multiplier commandName hparse httl hkey
    obtain ⟨x, hx⟩ := Option.isSome_iff_exists.mp hkey
    exact expireImpl_kept_iff h hnow httl hparse hx commandName name
  · intro s p hparse hlate hkey
    obtain ⟨x, hx⟩ := Option.isSome_iff_exists.mp hkey
    exact pexpireat_kept_iff h hnow hparse hlate hx name
  · intro value options o hparse hok
    exact ⟨fun ttl httl hpxat => set_ttl_kept_iff h hnow hparse httl hpxat hok,
      fun p hpxat hlate => set_pxat_kept_iff h hnow hparse hpxat hlate hok⟩

/-- An engine that holds `k`, which does not expire. -/
def singleKeyEngine : StorageEngine :=
  (({ setup := ⟨{}, {}, fun _ => 0⟩ } : StorageEngine).set (ascii "k") (ascii "v") none .always 0).2

open Commands in
theorem deadline_kept_five :
    parseTtlMs (ascii "5") 1 = some 5 ∧
      DeadlineKept 0 (0 + 5 * nanosPerMilli) (ascii "k")
        (expireImpl 1 (ascii "PEXPIRE") singleKeyEngine 0 (["PEXPIRE", "k", "5"].map ascii)) := by
  have hparse : parseTtlMs (ascii "5") 1 = some 5 := by decide
  have hwf : singleKeyEngine.WF :=
    (StorageEngine.set_of_ok (StorageEngine.wf_new _) (by decide +kernel)).2.2.wf
  have hkey : (singleKeyEngine.keyspace.visible 0 (ascii "k")).isSome := by decide +kernel
  exact ⟨hparse, ((deadline_kept_iff hwf le_rfl (ascii "PEXPIRE") (ascii "k")).1 (ascii "5") 5 1
    (ascii "PEXPIRE") hparse (by decide) hkey).mpr (by decide)⟩

open Commands in
/-- A deadline after the end of the clock lies in the past: the key is gone at once, and the
timestamp that is logged is negative. With `PXAT` a key that has half a millisecond left is gone at
once, too. -/
theorem far_deadline_past :
    let late := expireImpl 1 (ascii "PEXPIRE") singleKeyEngine 0
      (["PEXPIRE", "k", "9223372036855"].map ascii)
    let soon := Commands.set singleKeyEngine 500000 (["SET", "k", "v", "PXAT", "1"].map ascii)
    parseTtlMs (ascii "9223372036855") 1 = some 9223372036855 ∧ late.result = integer 1 ∧
      late.storage.keyspace.visible 0 (ascii "k") = none ∧
      late.record = some (["PEXPIREAT", "k", "-9223372036854"].map ascii) ∧
      soon.result = ok ∧ soon.storage.keyspace.visible 500000 (ascii "k") = none := by
  decide +kernel

end VeloxDb
