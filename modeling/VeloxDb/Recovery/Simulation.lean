import VeloxDb.Commands.Budget
import VeloxDb.Recovery.Deadlines
import VeloxDb.Server

/-!
# Replay follows the live engine

`Sim T m L P` relates the live engine `L` to an engine `P` that has replayed the log so far with all
clock readings at `T`. Every key visible in `P` at `T` is stored in `L` with the same value and a
deadline that returns (`Returns T m`), and a key stored in `L` that is not visible in `P` has a
deadline that may have come back as one that has passed. Under a memory limit `P` is also granted
what `L` was granted (`Room`): it stores nothing that `L` does not, or the records that are still to
come fit beside what it stores, each at its `recordCharge`.

The theorems replay one write after another: if the live write succeeded and is *safe* with regard
to `T`, then its record succeeds in the replay and the relation is kept.
-/

namespace VeloxDb

open Decimal Util

/-! ## Items -/

/-- What is stored live under a key, and what a replay shows of it at `T`. -/
def Agrees (T m : ℤ) (l : Option Item) : Option Item → Prop
  | some x => ∃ y, l = some y ∧ y.value = x.value ∧ Returns T m y.expiry x.expiry
  | none => ∀ y, l = some y → ∃ d ≤ T, Returns T m y.expiry (some d)

/-- The item outlives `T` by more than the margin. -/
def Item.Endures (x : Item) (T m : ℤ) : Prop := ∀ d, x.expiry = some d → T + m < d

/-- What has expired at `now` has expired at `T`. -/
def Keyspace.PastBy (K : Keyspace) (now T : ℤ) : Prop :=
  ∀ k x, K k = some x → x.expired now = true → x.expired T = true

/-- No deadline passes in the past. -/
theorem Keyspace.pastBy_of_le (K : Keyspace) {now T : ℤ} (h : now ≤ T) : K.PastBy now T :=
  fun _ _ _ hx => Item.expired_mono h hx

/-- An item has expired if its deadline has come. -/
theorem Item.expired_eq_true {x : Item} {t : ℤ} :
    x.expired t = true ↔ ∃ d ≤ t, x.expiry = some d := by
  obtain ⟨value, expiry⟩ := x
  cases expiry <;> simp [Item.expired]

namespace Agrees

variable {T m : ℤ}

/-- Two keys without an item agree. -/
theorem none_none : Agrees T m none none := fun _ h => nomatch h

/-- An item that was written on both sides. -/
theorem of_returns {y x : Item} (hv : y.value = x.value) (hret : Returns T m y.expiry x.expiry) :
    Agrees T m (some y) ((some x).filter fun x => !x.expired T) := by
  by_cases hx : x.expired T = true
  · obtain ⟨d, hd, hxd⟩ := Item.expired_eq_true.mp hx
    have hnone : (some x).filter (fun x => !x.expired T) = none := by simp [Option.filter, hx]
    rw [hnone]
    rintro _ ⟨⟩
    exact ⟨d, hd, hxd ▸ hret⟩
  · have hsome : (some x).filter (fun x => !x.expired T) = some x := by simp [Option.filter, hx]
    rw [hsome]
    exact ⟨y, rfl, hv, hret⟩

end Agrees

/-! ## The memory that a record can take -/

/-- What shows an item is charged with it. -/
theorem keyMemory_of_visible {P : StorageEngine} {T : ℤ} {k : Bytes} {x : Item}
    (hx : P.keyspace.visible T k = some x) : P.keyMemory k = entryMemory k x.value := by
  rw [StorageEngine.keyMemory_eq, (Keyspace.visible_eq_some.mp hx).1]
  rfl

/-- `append` takes no more than an entry with its argument alone. -/
theorem entryMemory_appended_le (P : StorageEngine) (k suffix : Bytes) (T : ℤ) :
    entryMemory k (StorageEngine.appended suffix (P.keyspace.visible T k))
      ≤ P.keyMemory k + entryMemory k suffix := by
  cases hx : P.keyspace.visible T k with
  | none => exact Nat.le_add_left _ _
  | some x =>
    rw [keyMemory_of_visible hx]
    simp only [StorageEngine.appended, entryMemory, Option.map_some, Option.getD_some,
      List.length_append]
    omega

/-! ## Engines -/

/-- Why the replay is granted the memory that the live engine was granted: it stores nothing that
the live engine does not, or so many bytes fit beside what it stores. -/
def Room (L P : StorageEngine) : Option ℕ → Prop
  | none => P.Within L
  | some bytes => P.usedMemory + bytes ≤ P.maxMemoryBytes

namespace Room

variable {L L' P P' : StorageEngine} {spare : Option ℕ} {charge : ℕ} {k : Bytes}

/-- What the live engine admits, the replay admits, if it grows by no more than the charge. -/
theorem admits (h : L.maxMemoryBytes ≠ 0 → Room L P (spare.map (· + charge))) (hL : L.WF)
    (hP : P.WF) (hs : P.setup = L.setup) {v : Bytes} (ha : L.Admits k v)
    (hcharge : entryMemory k v ≤ P.keyMemory k + charge) : P.Admits k v := by
  cases spare with
  | none => exact ha.mono hL hP hs h
  | some bytes =>
    refine ⟨hs ▸ ha.keyValid, hs ▸ ha.valueValid, ?_⟩
    by_cases hmax : P.maxMemoryBytes = 0
    · exact .inl hmax
    · have hroom : P.usedMemory + (bytes + charge) ≤ P.maxMemoryBytes :=
        h (by rwa [StorageEngine.maxMemoryBytes, ← hs])
      have hused := hP.used_eq hmax k
      exact .inr (by omega)

/-- Both engines write a key: the charge is used up. -/
theorem update (h : Room L P (spare.map (· + charge))) (hP : P.WF) (hmax : P.maxMemoryBytes ≠ 0)
    {l p : Option Item} (hbL : StorageEngine.Becomes L L' (Function.update L.keyspace k l))
    (hbP : StorageEngine.Becomes P P' (Function.update P.keyspace k p))
    (hstored : ∀ x, p = some x → ∃ y, l = some y ∧ y.value = x.value)
    (hcharge : StorageEngine.itemMemory k p ≤ P.keyMemory k + charge) : Room L' P' spare := by
  cases spare with
  | none =>
    intro j x
    rw [hbL.keyspace, hbP.keyspace]
    by_cases hjk : j = k
    · subst hjk
      simpa only [Function.update_self] using hstored x
    · simpa only [Function.update_of_ne hjk] using h j x
  | some bytes =>
    have hroom : P.usedMemory + (bytes + charge) ≤ P.maxMemoryBytes := h
    have hused := hbP.used_update hP hmax
    have hsame : P'.maxMemoryBytes = P.maxMemoryBytes := by
      rw [StorageEngine.maxMemoryBytes, hbP.setup]
      rfl
    simp only [Room, hsame]
    omega

/-- The replay drops entries: it has as much room, if the live engine drops no others. -/
theorem drop (h : Room L P spare) (hP : P.WF) (hP' : P'.WF) (hs : P'.setup = P.setup)
    (hmax : P.maxMemoryBytes ≠ 0) (hsub : P'.Within P) (hkeep : P.Within L → P'.Within L') :
    Room L' P' spare := by
  cases spare with
  | none => exact hkeep h
  | some bytes =>
    have hroom : P.usedMemory + bytes ≤ P.maxMemoryBytes := h
    have hused := hsub.used_le hP hP' hs hmax
    have hsame : P'.maxMemoryBytes = P.maxMemoryBytes := by
      rw [StorageEngine.maxMemoryBytes, hs]
      rfl
    simp only [Room, hsame]
    omega

end Room

/-- The live engine and the one that a replay at time `T` builds: they agree on every key, up to `m`
of the deadlines, and the replay has room for what follows. -/
structure Sim (T m : ℤ) (spare : Option ℕ) (L P : StorageEngine) : Prop where
  setup : P.setup = L.setup
  live_wf : L.WF
  replay_wf : P.WF
  items : ∀ k, Agrees T m (L.keyspace k) (P.keyspace.visible T k)
  room : L.maxMemoryBytes ≠ 0 → Room L P spare

namespace Sim

variable {T m now : ℤ} {spare : Option ℕ} {charge : ℕ} {L L' P P' : StorageEngine} {k : Bytes}

/-- Both engines have the same limit. -/
theorem maxMemoryBytes_eq (h : Sim T m spare L P) : P.maxMemoryBytes = L.maxMemoryBytes := by
  rw [StorageEngine.maxMemoryBytes, h.setup]
  rfl

/-- A step without a charge. -/
theorem free (h : Sim T m spare L P) : Sim T m (spare.map (· + 0)) L P := by
  simpa using h

/-- What the replay shows is stored live, and not expired at any earlier time. -/
theorem of_visible_some (h : Sim T m spare L P) (hpast : L.keyspace.PastBy now T) {x : Item}
    (hv : P.keyspace.visible T k = some x) :
    ∃ y, L.keyspace.visible now k = some y ∧ y.value = x.value ∧ Returns T m y.expiry x.expiry := by
  have hk := h.items k
  rw [hv] at hk
  obtain ⟨y, hy, hvalue, hret⟩ := hk
  refine ⟨y, Keyspace.visible_eq_some.mpr ⟨hy, ?_⟩, hvalue, hret⟩
  by_contra hnow
  rw [Bool.not_eq_false] at hnow
  obtain ⟨d, hd, hyd⟩ := Item.expired_eq_true.mp (hpast k y hy hnow)
  rw [hyd] at hret
  obtain ⟨d', hd', hxd⟩ := hret.of_le hd
  have hexp := (Keyspace.visible_eq_some.mp hv).2
  rw [Item.expired_eq_true.mpr ⟨d', hd', hxd⟩] at hexp
  cases hexp

/-- A key that is not visible live is not visible in the replay. -/
theorem of_visible_none (h : Sim T m spare L P) (hpast : L.keyspace.PastBy now T)
    (hv : L.keyspace.visible now k = none) : P.keyspace.visible T k = none := by
  by_contra hsome
  obtain ⟨x, hx⟩ := Option.ne_none_iff_exists'.mp hsome
  obtain ⟨y, hy, -⟩ := h.of_visible_some hpast hx
  rw [hv] at hy
  cases hy

/-- An item that endures is visible in the replay. -/
theorem of_endures (h : Sim T m spare L P) (hm : 0 ≤ m) {y : Item}
    (hv : L.keyspace.visible now k = some y) (hend : y.Endures T m) :
    ∃ x, P.keyspace.visible T k = some x ∧ y.value = x.value ∧ Returns T m y.expiry x.expiry := by
  have hy := (Keyspace.visible_eq_some.mp hv).1
  have hk := h.items k
  cases hx : P.keyspace.visible T k with
  | some x =>
    rw [hx] at hk
    obtain ⟨y', hy', hvalue, hret⟩ := hk
    rw [hy, Option.some.injEq] at hy'
    subst hy'
    exact ⟨x, rfl, hvalue, hret⟩
  | none =>
    rw [hx] at hk
    obtain ⟨d, hd, hret⟩ := hk y hy
    cases hexp : y.expiry with
    | none =>
      rw [hexp] at hret
      exact hret.elim
    | some d₀ =>
      rw [hexp] at hret
      have hlt := hret.of_lt hm (hend d₀ hexp)
      omega

/-- Where the live item endures, both sides see the same value. -/
theorem value_eq (h : Sim T m spare L P) (hm : 0 ≤ m) (hpast : L.keyspace.PastBy now T)
    (hend : ∀ y, L.keyspace.visible now k = some y → y.Endures T m) :
    (P.keyspace.visible T k).map Item.value = (L.keyspace.visible now k).map Item.value := by
  cases hv : L.keyspace.visible now k with
  | none => rw [h.of_visible_none hpast hv]
  | some y =>
    obtain ⟨x, hx, hvalue, -⟩ := h.of_endures hm hv (hend y hv)
    rw [hx, Option.map_some, Option.map_some, hvalue]

/-- Where the margin is nothing, both sides show the same at `T`. -/
theorem visible_eq (h : Sim T 0 spare L P) :
    P.keyspace.visible T = L.keyspace.visible T := by
  funext k
  have hk := h.items k
  cases hx : P.keyspace.visible T k with
  | some x =>
    obtain ⟨y, hy, hvalue, hret⟩ := h.of_visible_some (Keyspace.pastBy_of_le _ le_rfl) hx
    have hexp := hret.exact
    obtain ⟨value, expiry⟩ := x
    obtain ⟨value', expiry'⟩ := y
    cases hvalue
    cases hexp
    exact hy.symm
  | none =>
    rw [hx] at hk
    refine (Keyspace.visible_eq_none.mpr fun y hy => ?_).symm
    obtain ⟨d, hd, hret⟩ := hk y hy
    exact Item.expired_eq_true.mpr ⟨d, hd, hret.exact.symm⟩

/-- What the live engine admits, the replay admits, if it grows by no more than the charge. -/
theorem admits (h : Sim T m (spare.map (· + charge)) L P) {v : Bytes} (ha : L.Admits k v)
    (hcharge : entryMemory k v ≤ P.keyMemory k + charge) : P.Admits k v :=
  Room.admits h.room h.live_wf h.replay_wf h.setup ha hcharge

/-- The same key is written on both sides. -/
theorem update (h : Sim T m (spare.map (· + charge)) L P) {l p : Option Item}
    (hL : StorageEngine.Becomes L L' (Function.update L.keyspace k l))
    (hP : StorageEngine.Becomes P P' (Function.update P.keyspace k p))
    (hitem : Agrees T m l (p.filter fun x => !x.expired T))
    (hstored : ∀ x, p = some x → ∃ y, l = some y ∧ y.value = x.value)
    (hcharge : StorageEngine.itemMemory k p ≤ P.keyMemory k + charge) : Sim T m spare L' P' := by
  have hmax : L'.maxMemoryBytes = L.maxMemoryBytes :=
    congrArg (fun s : StorageSetup => s.config.maxMemoryBytes) hL.setup
  refine ⟨by rw [hP.setup, hL.setup, h.setup], hL.wf, hP.wf, fun j => ?_, fun hne => ?_⟩
  · rw [hL.keyspace, hP.keyspace]
    by_cases hjk : j = k
    · subst hjk
      rwa [Function.update_self, Keyspace.visible_update_self]
    · rw [Function.update_of_ne hjk, Keyspace.visible_update_of_ne hjk]
      exact h.items j
  · rw [hmax] at hne
    exact (h.room hne).update h.replay_wf (h.maxMemoryBytes_eq ▸ hne) hL hP hstored hcharge

/-- Nothing has expired, or memory is not limited. -/
def Unhurried (now : ℤ) (L : StorageEngine) : Prop :=
  L.maxMemoryBytes = 0 ∨ ∀ k x, L.keyspace k = some x → x.expired now = false

/-- The live engine drops expired entries. If the replay has its room because it stores no others,
there must be none of them. -/
theorem reclaimed (h : Sim T m spare L P) (hpast : L.keyspace.PastBy now T)
    (hun : spare = none → Unhurried now L) (hre : StorageEngine.Reclaimed now L L') :
    Sim T m spare L' P := by
  have hmax : L'.maxMemoryBytes = L.maxMemoryBytes :=
    congrArg (fun s : StorageSetup => s.config.maxMemoryBytes) hre.setup
  refine ⟨by rw [hre.setup, h.setup], hre.wf, h.replay_wf, fun k => ?_, fun hne => ?_⟩
  · rcases hre.reclaims k with hk | ⟨hk, hv⟩
    · rw [hk]
      exact h.items k
    · rw [hk, h.of_visible_none hpast hv]
      exact Agrees.none_none
  · rw [hmax] at hne
    have hroom := h.room hne
    cases spare with
    | none =>
      intro k x hx
      rw [hre.reclaims.eq_of_fresh ((hun rfl).resolve_left hne)]
      exact hroom k x hx
    | some bytes => exact hroom

/-! ## One write -/

/-- `set`, and the `set` of its record. -/
theorem set {v : Bytes} (h : Sim T m (spare.map (· + entryMemory k v)) L P)
    {ttl ttl' : Option ℤ} {c : SetCondition}
    (hok : (L.set k v ttl c now).1.code = .ok)
    (hret : Returns T m (ttl.map (addMillis now)) (ttl'.map (addMillis T))) :
    ∃ P', P.set k v ttl' .always T = ({ code := .ok }, P') ∧
      Sim T m spare (L.set k v ttl c now).2 P' := by
  obtain ⟨-, ha, hL⟩ := StorageEngine.set_of_ok h.live_wf hok
  obtain ⟨P', hset, hP⟩ : ∃ P', P.set k v ttl' .always T = _ ∧ _ :=
    StorageEngine.set_of_admits h.replay_wf ttl' ⟨by simp, by simp⟩
      (h.admits ha (Nat.le_add_left _ _))
  refine ⟨P', hset, h.update hL hP (Agrees.of_returns rfl hret) ?_ (Nat.le_add_left _ _)⟩
  rintro _ ⟨⟩
  exact ⟨_, rfl, rfl⟩

/-- A value without a deadline. -/
theorem update_value (h : Sim T m (spare.map (· + charge)) L P) {v : Bytes}
    (hL : StorageEngine.Becomes L L' (Function.update L.keyspace k (some ⟨v, none⟩)))
    (hP : StorageEngine.Becomes P P' (Function.update P.keyspace k (some ⟨v, none⟩)))
    (hcharge : entryMemory k v ≤ P.keyMemory k + charge) : Sim T m spare L' P' := by
  refine h.update hL hP (Agrees.of_returns rfl (Returns.refl _)) ?_ hcharge
  rintro _ ⟨⟩
  exact ⟨_, rfl, rfl⟩

/-- `incr_by`, and that of its record. -/
theorem incrBy (h : Sim T m (spare.map (· + counterMemory k)) L P) (hm : 0 ≤ m)
    (hpast : L.keyspace.PastBy now T)
    (hend : ∀ y, L.keyspace.visible now k = some y → y.Endures T m) {delta : ℤ}
    (hok : (L.incrBy k delta now).1.code = .ok) :
    ∃ n P', P.incrBy k delta T = ({ code := .ok, integer := n }, P') ∧
      Sim T m spare (L.incrBy k delta now).2 P' := by
  obtain ⟨n, hn, ha, hL⟩ := StorageEngine.incrBy_of_ok h.live_wf hok
  have hn' : StorageEngine.nextInteger delta (P.keyspace.visible T k) = some n := by
    rw [← hn, StorageEngine.nextInteger, StorageEngine.nextInteger, h.value_eq hm hpast hend]
  have hcharge : entryMemory k (printInt n) ≤ P.keyMemory k + counterMemory k := by
    have hlen := length_printInt_le (StorageEngine.inI64_nextInteger hn)
    rw [entryMemory, counterMemory]
    omega
  obtain ⟨P', hincr, hP⟩ := StorageEngine.incrBy_of_admits h.replay_wf hn' (h.admits ha hcharge)
  exact ⟨n, P', hincr, h.update_value hL hP hcharge⟩

/-- `append`, and that of its record. -/
theorem append {suffix : Bytes} (h : Sim T m (spare.map (· + entryMemory k suffix)) L P)
    (hm : 0 ≤ m) (hpast : L.keyspace.PastBy now T)
    (hend : ∀ y, L.keyspace.visible now k = some y → y.Endures T m)
    (hok : (L.append k suffix now).1.code = .ok) :
    ∃ n P', P.append k suffix T = ({ code := .ok, integer := n }, P') ∧
      Sim T m spare (L.append k suffix now).2 P' := by
  obtain ⟨ha, hL⟩ := StorageEngine.append_of_ok h.live_wf hok
  have hn : StorageEngine.appended suffix (P.keyspace.visible T k)
      = StorageEngine.appended suffix (L.keyspace.visible now k) := by
    rw [StorageEngine.appended, StorageEngine.appended, h.value_eq hm hpast hend]
  have hcharge := hn ▸ entryMemory_appended_le P k suffix T
  obtain ⟨P', happend, hP⟩ := StorageEngine.append_of_admits h.replay_wf hn (h.admits ha hcharge)
  exact ⟨_, P', happend, h.update_value hL hP hcharge⟩

/-- `del`, and that of its record. -/
theorem delAll (h : Sim T m spare L P) (keys : List Bytes) :
    Sim T m spare (L.delAll keys now).2 (P.delAll keys T).2 := by
  have hL := (StorageEngine.delAll_spec h.live_wf keys now).1
  have hP := (StorageEngine.delAll_spec h.replay_wf keys T).1
  have hmax : (L.delAll keys now).2.maxMemoryBytes = L.maxMemoryBytes :=
    congrArg (fun s : StorageSetup => s.config.maxMemoryBytes) hL.setup
  refine ⟨by rw [hP.setup, hL.setup, h.setup], hL.wf, hP.wf, fun k => ?_, fun hne => ?_⟩
  · rw [hL.keyspace, hP.keyspace]
    by_cases hk : k ∈ keys
    · simp only [StorageEngine.without, Keyspace.visible, hk, if_true]
      exact Agrees.none_none
    · simpa only [StorageEngine.without, Keyspace.visible, hk, if_false] using h.items k
  · rw [hmax] at hne
    refine (h.room hne).drop h.replay_wf hP.wf hP.setup (h.maxMemoryBytes_eq ▸ hne)
      (fun k x hx => ?_) fun hsub k x => ?_
    · rw [hP.keyspace] at hx
      by_cases hk : k ∈ keys
      · simp [StorageEngine.without, hk] at hx
      · exact ⟨x, by simpa only [StorageEngine.without, hk, if_false] using hx, rfl⟩
    · rw [hL.keyspace, hP.keyspace]
      by_cases hk : k ∈ keys
      · simp [StorageEngine.without, hk]
      · simpa only [StorageEngine.without, hk, if_false] using hsub k x

/-- `flushdb`, and that of its record. -/
theorem flushdb (h : Sim T m spare L P) : Sim T m spare L.flushdb P.flushdb := by
  have hL := StorageEngine.flushdb_spec h.live_wf
  have hP := StorageEngine.flushdb_spec h.replay_wf
  have hmax : L.flushdb.maxMemoryBytes = L.maxMemoryBytes :=
    congrArg (fun s : StorageSetup => s.config.maxMemoryBytes) hL.setup
  have hnone : ∀ e, P.flushdb.Within e := fun e k x hx => by
    rw [hP.keyspace] at hx
    cases hx
  refine ⟨by rw [hP.setup, hL.setup, h.setup], hL.wf, hP.wf, fun k => ?_, fun hne => ?_⟩
  · rw [hL.keyspace, hP.keyspace]
    exact Agrees.none_none
  · rw [hmax] at hne
    exact (h.room hne).drop h.replay_wf hP.wf hP.setup (h.maxMemoryBytes_eq ▸ hne) (hnone P)
      fun _ => hnone _

/-- A deadline is set live and, as it returns, in the replay. The item endures, or its new deadline
has come by `T`, up to the margin. -/
theorem expireAt (h : Sim T m spare L P) (hm : 0 ≤ m) (hle : now ≤ T) {d d' : ℤ} {y : Item}
    (hv : L.keyspace.visible now k = some y) (hret : Returns T m (some d) (some d'))
    (hsafe : y.Endures T m ∨ d ≤ T + m)
    (hL : StorageEngine.Becomes L L'
      (Function.update L.keyspace k (StorageEngine.expiredAt d now (some y)))) :
    Sim T m spare L' (P.expireAt k d' T).2 := by
  obtain ⟨P', heq, hP⟩ := StorageEngine.expireAt_spec h.replay_wf k d' T
  rw [heq]
  have hpast := L.keyspace.pastBy_of_le hle
  by_cases hd' : d' ≤ T
  · -- the deadline has passed: the replay deletes
    rw [StorageEngine.expiredAt, if_pos hd'] at hP
    refine h.free.update hL hP ?_ (fun _ hx => by cases hx) (Nat.zero_le _)
    intro z hz
    rw [StorageEngine.expiredAt] at hz
    split_ifs at hz
    cases hz
    exact ⟨d', hd', hret⟩
  have hd : T < d := by
    by_contra hd
    obtain ⟨d₁, hd₁, heq₁⟩ := hret.of_le (not_lt.mp hd)
    cases heq₁
    exact hd' hd₁
  rw [StorageEngine.expiredAt, if_neg (not_le.mpr (hle.trans_lt hd)), Option.map_some] at hL
  rw [StorageEngine.expiredAt, if_neg hd'] at hP
  cases hx : P.keyspace.visible T k with
  | some x =>
    rw [hx, Option.map_some] at hP
    obtain ⟨y', hy', hvalue, -⟩ := h.of_visible_some hpast hx
    rw [hv, Option.some.injEq] at hy'
    subst hy'
    refine h.free.update hL hP (Agrees.of_returns hvalue hret) ?_ (keyMemory_of_visible hx).ge
    rintro _ ⟨⟩
    exact ⟨_, rfl, hvalue⟩
  | none =>
    rw [hx, Option.map_none] at hP
    refine h.free.update hL hP ?_ (fun _ hx => by cases hx) (Nat.zero_le _)
    rcases hsafe with hend | hnear
    · obtain ⟨x, hx', -⟩ := h.of_endures hm hv hend
      rw [hx] at hx'
      cases hx'
    · -- within the margin the deadline may as well have come back as `T`
      rintro z ⟨⟩
      exact ⟨T, le_rfl, Or.inr ⟨by omega, fun _ => le_rfl, fun hlt => by omega⟩⟩

/-- `persist`, and that of its record. -/
theorem persist (h : Sim T m spare L P) (hm : 0 ≤ m) {y : Item}
    (hv : L.keyspace.visible now k = some y) (hend : y.Endures T m) :
    Sim T m spare (L.persist k now).2 (P.persist k T).2 := by
  obtain ⟨L', heqL, hL⟩ := StorageEngine.persist_spec h.live_wf k now
  obtain ⟨P', heqP, hP⟩ := StorageEngine.persist_spec h.replay_wf k T
  obtain ⟨x, hx, hvalue, -⟩ := h.of_endures hm hv hend
  rw [heqL, heqP]
  rw [hv, Option.map_some] at hL
  rw [hx, Option.map_some] at hP
  refine h.free.update hL hP (Agrees.of_returns hvalue (Returns.refl none)) ?_
    (keyMemory_of_visible hx).ge
  rintro _ ⟨⟩
  exact ⟨_, rfl, hvalue⟩

/-- The loop of `MSET`. -/
theorem setPairs (pairs : List Bytes) (h : Sim T m (spare.map (· + pairsMemory pairs)) L P)
    (hok : (Commands.setPairs now pairs L).1 = .ok) :
    (Commands.setPairs T pairs P).1 = .ok ∧
      Sim T m spare (Commands.setPairs now pairs L).2 (Commands.setPairs T pairs P).2 := by
  fun_induction Commands.setPairs now pairs L generalizing P with
  | case1 key value rest L write L' hset hcode ih =>
    have hset' : (L.set key value none .always now).1.code = .ok := by rw [hset]; exact hcode
    have hfirst : Sim T m ((spare.map (· + pairsMemory rest)).map (· + entryMemory key value)) L P := by
      have hsum : (· + entryMemory key value) ∘ (· + pairsMemory rest)
          = (· + pairsMemory (key :: value :: rest)) := funext fun _ => Nat.add_assoc _ _ _
      rwa [Option.map_map, hsum]
    obtain ⟨P', hP, hsim⟩ : ∃ P', P.set key value none .always T = _ ∧ _ :=
      hfirst.set hset' (Returns.refl none)
    rw [hset] at hsim
    simp only [Commands.setPairs, hP, if_true]
    exact ih hsim hok
  | case2 key value rest L write L' hset hcode => exact absurd hok hcode
  | case3 pairs L hpairs =>
    have hdone : Commands.setPairs T pairs P = (.ok, P) := by
      unfold Commands.setPairs
      split
      · exact (hpairs _ _ _ rfl).elim
      · rfl
    have hnothing : pairsMemory pairs = 0 := by
      unfold pairsMemory
      split
      · exact (hpairs _ _ _ rfl).elim
      · rfl
    rw [hnothing] at h
    rw [hdone]
    exact ⟨rfl, by simpa using h⟩

end Sim

/-! ## Records -/

/-- The command that a list of arguments names. -/
def CommandName.ofArgs (args : List Bytes) : Option CommandName := args.head?.bind CommandName.find

/-- By how much a replay of the record can grow the memory. -/
def recordCharge (record : List Bytes) : ℕ :=
  ((CommandName.ofArgs record).map fun name => name.charge record).getD 0

/-- The charge of a record whose command is known. -/
theorem recordCharge_of_name {record : List Bytes} {name : CommandName}
    (hname : CommandName.ofArgs record = some name) : recordCharge record = name.charge record := by
  rw [recordCharge, hname]
  rfl

/-- The same by the first argument. -/
theorem recordCharge_cons {head : Bytes} {name : CommandName}
    (hname : CommandName.find head = some name) (tail : List Bytes) :
    recordCharge (head :: tail) = name.charge (head :: tail) := recordCharge_of_name hname

/-- Replay one record on an engine; nothing if the reply is an error. -/
def applyRecord (env : Env) (now : ℤ) (P : StorageEngine) (record : List Bytes) :
    Option StorageEngine := do
  let name ← CommandName.ofArgs record
  let eff ← Commands.effect name env.config (Recovery.replayContext env P) now record
  if eff.result.isError then none else some eff.storage

/-- The first argument names the command. -/
theorem CommandName.ofArgs_cons (head : Bytes) (tail : List Bytes) :
    CommandName.ofArgs (head :: tail) = CommandName.find head := rfl

/-- No name of a command is shorter. -/
theorem CommandName.three_le_length {head : Bytes} {tail : List Bytes}
    (h : (CommandName.ofArgs (head :: tail)).isSome = true) : 3 ≤ head.length := by
  obtain ⟨name, hname⟩ := Option.isSome_iff_exists.mp h
  have htext : name.text = toUpperAscii head := by
    rw [CommandName.ofArgs_cons, CommandName.find] at hname
    have hbeq := List.find?_some hname
    exact beq_iff_eq.mp hbeq
  have hlen : head.length = name.text.length := by rw [htext, toUpperAscii, List.length_map]
  rw [hlen]
  cases name <;> decide

/-- The record of a deadline. -/
theorem applyRecord_pexpireat {env : Env} {T : ℤ} {P : StorageEngine} {head key value : Bytes}
    {ms : ℤ} (hname : CommandName.find head = some .pexpireat) (hparse : parseI64 value = some ms) :
    applyRecord env T P [head, key, value]
      = some (P.expireAt key (timepointFromUnixMs ms) T).2 := by
  rw [applyRecord, CommandName.ofArgs_cons, hname]
  simp [Commands.effect, Commands.pexpireat, Recovery.replayContext, hparse]

namespace StorageEngine

/-- `EXPIRE` in terms of its deadline; one that is not positive has come at once. -/
theorem expire_spec {e : StorageEngine} {k : Bytes} {now ttl : ℤ} (h : e.WF)
    (hin : InI64 (now + ttl * nanosPerMilli)) :
    ∃ e', e.expire k ttl now = ((e.keyspace.visible now k).isSome, e') ∧
      Becomes e e' (Function.update e.keyspace k
        (expiredAt (now + ttl * nanosPerMilli) now (e.keyspace.visible now k))) := by
  by_cases httl : ttl ≤ 0
  · obtain ⟨e', heq, hb⟩ := expire_of_nonpos h k httl now
    refine ⟨e', heq, ?_⟩
    have hcome : (now + ttl * nanosPerMilli : ℤ) ≤ now := by
      simp only [nanosPerMilli]
      omega
    rwa [expiredAt, if_pos hcome]
  · rw [expire_of_pos e k (by omega), addMillis_of_inI64 hin]
    exact expireAt_spec h k _ now

end StorageEngine

/-! ## Safe commands -/

/-- What is visible of the key outlives `T` by more than the margin. -/
def KeyEndures (T m now : ℤ) (L : StorageEngine) (key : Bytes) : Prop :=
  ∀ y, L.keyspace.visible now key = some y → y.Endures T m

/-- A relative expiry: the new deadline is representable, and the key endures or the deadline has
come by `T`, up to the margin. -/
def ExpireSafe (T m now : ℤ) (L : StorageEngine) (key : Bytes) (ttl : ℤ) : Prop :=
  Timely T m now ∧ InI64 (now + ttl * nanosPerMilli) ∧
    (KeyEndures T m now L key ∨ now + ttl * nanosPerMilli ≤ T + m)

/-- What a command must not do if its record is to be replayed at `T`: set a deadline that is not
representable, or build on an item that will have expired by then. -/
def Safe (T m now : ℤ) (L : StorageEngine) : CommandName → List Bytes → Prop
  | .set, _ :: _ :: _ :: rest => ∀ o, Commands.parseSetOptions rest {} = .ok o →
      (o.ttl = none ∧ o.pxat = none) ∨ (Timely T m now ∧ o.InRange now)
  | .incr, [_, key] | .decr, [_, key] | .append, [_, key, _] | .persist, [_, key] =>
    KeyEndures T m now L key
  | .expire, [_, key, value] => ∀ ttl, Commands.parseTtlMs value 1000 = some ttl →
      ExpireSafe T m now L key ttl
  | .pexpire, [_, key, value] => ∀ ttl, Commands.parseTtlMs value 1 = some ttl →
      ExpireSafe T m now L key ttl
  | .pexpireat, [_, key, value] => ∀ ms, parseI64 value = some ms →
      now ≤ T ∧ (KeyEndures T m now L key ∨ timepointFromUnixMs ms ≤ T + m)
  | _, _ => True

namespace Sim

variable {T m now : ℤ} {spare : Option ℕ} {L P : StorageEngine} {env : Env}

/-- `EXPIRE` and `PEXPIRE`. -/
theorem expire (h : Sim T m spare L P) (hm : 0 ≤ m) {key : Bytes} {ttl : ℤ}
    (hsafe : ExpireSafe T m now L key ttl) (hchanged : (L.expire key ttl now).1 = true) :
    parseI64 (Commands.pxatArgFromTtl now ttl) = some (unixMs (addMillis now ttl)) ∧
      Sim T m spare (L.expire key ttl now).2
        (P.expireAt key (timepointFromUnixMs (unixMs (addMillis now ttl))) T).2 := by
  obtain ⟨htime, hin, hend⟩ := hsafe
  obtain ⟨L', heq, hL⟩ := StorageEngine.expire_spec h.live_wf hin (k := key)
  rw [heq] at hchanged ⊢
  obtain ⟨y, hy⟩ := Option.isSome_iff_exists.mp hchanged
  rw [hy] at hL
  rw [addMillis_of_inI64 hin]
  refine ⟨?_, ?_⟩
  · rw [Commands.pxatArgFromTtl, addMillis_of_inI64 hin]
    exact parseI64_printInt (inI64_unixMs hin)
  · refine h.expireAt hm htime.le hy ?_ (hend.imp_left fun he => he y hy) hL
    refine returns_unixMs htime.restart_clock.1 hin (htime.precise.imp_left ?_)
    rintro ⟨hm0, hnow, -⟩
    exact ⟨hm0, Int.dvd_add hnow (Int.dvd_mul_left _ _)⟩

/-- A record without a charge. -/
theorem of_free {record : List Bytes} (h : Sim T m (spare.map (· + recordCharge record)) L P)
    (hfree : recordCharge record = 0) : Sim T m spare L P := by
  simpa [hfree] using h

/-- **The record of a safe write** replays without an error and keeps the relation. -/
theorem logs {record : List Bytes} (h : Sim T m (spare.map (· + recordCharge record)) L P)
    (hm : 0 ≤ m) (hpast : L.keyspace.PastBy now T)
    {name : CommandName} {args : List Bytes} {eff : Effect}
    (hname : CommandName.ofArgs args = some name) (hsafe : Safe T m now L name args)
    (hlogs : Commands.Logs now L name args eff) (hrecord : eff.record = some record) :
    ∃ P', applyRecord env T P record = some P' ∧ Sim T m spare eff.storage P' := by
  cases hlogs with
  | @set head key value rest options hparse hok =>
    have hpos := Commands.positive_of_parse Commands.positive_empty hparse
    obtain ⟨rest', o', hrec, hparse', hcond, hret⟩ :=
      Commands.setRecord_spec key value hpos (hsafe options hparse)
    have hfind : CommandName.find (ascii "SET") = some .set := by decide
    rw [hrec] at hrecord
    cases hrecord
    rw [recordCharge_cons hfind] at h
    obtain ⟨P', hset, hsim⟩ := set h hok hret
    refine ⟨P', ?_, hsim⟩
    rw [applyRecord, CommandName.ofArgs_cons, hfind]
    simp [Commands.effect, Commands.set, Recovery.replayContext, hparse', hcond, hset]
  | @del head keys hkeys hdeleted =>
    obtain ⟨key, keys, rfl⟩ := List.exists_cons_of_ne_nil hkeys
    cases hrecord
    have hsim := h.of_free (recordCharge_of_name hname)
    refine ⟨_, ?_, hsim.delAll _⟩
    rw [applyRecord, hname]
    simp [Commands.effect, Commands.del, Recovery.replayContext]
  | @mset head pairs hlen heven hok =>
    cases hrecord
    rw [recordCharge_of_name hname] at h
    obtain ⟨hokP, hsim⟩ := setPairs pairs h hok
    refine ⟨_, ?_, hsim⟩
    have hargs : ¬ (pairs.length + 1 < 3 ∨ (pairs.length + 1) % 2 = 0) := by omega
    rw [applyRecord, hname]
    simp [Commands.effect, Commands.mset, Recovery.replayContext, hargs, hokP]
  | @incr head key hok =>
    cases hrecord
    rw [recordCharge_of_name hname] at h
    obtain ⟨n, P', hincr, hsim⟩ := incrBy h hm hpast hsafe hok
    refine ⟨P', ?_, hsim⟩
    rw [applyRecord, hname]
    simp [Commands.effect, Commands.incrDecr, Recovery.replayContext, hincr]
  | @decr head key hok =>
    cases hrecord
    rw [recordCharge_of_name hname] at h
    obtain ⟨n, P', hincr, hsim⟩ := incrBy h hm hpast hsafe hok
    refine ⟨P', ?_, hsim⟩
    rw [applyRecord, hname]
    simp [Commands.effect, Commands.incrDecr, Recovery.replayContext, hincr]
  | @append head key suffix hok =>
    cases hrecord
    rw [recordCharge_of_name hname] at h
    obtain ⟨n, P', happend, hsim⟩ := append h hm hpast hsafe hok
    refine ⟨P', ?_, hsim⟩
    rw [applyRecord, hname]
    simp [Commands.effect, Commands.append, Recovery.replayContext, happend]
  | @expire head key value ttl hparse hchanged =>
    cases hrecord
    obtain ⟨hms, hsim⟩ := (h.of_free rfl).expire hm (hsafe ttl hparse) hchanged
    exact ⟨_, applyRecord_pexpireat (by decide) hms, hsim⟩
  | @pexpire head key value ttl hparse hchanged =>
    cases hrecord
    obtain ⟨hms, hsim⟩ := (h.of_free rfl).expire hm (hsafe ttl hparse) hchanged
    exact ⟨_, applyRecord_pexpireat (by decide) hms, hsim⟩
  | @pexpireat head key value ms hparse hchanged =>
    obtain ⟨hle, hend⟩ := hsafe ms hparse
    obtain ⟨L', heq, hL⟩ := StorageEngine.expireAt_spec h.live_wf key (timepointFromUnixMs ms) now
    cases hrecord
    rw [heq] at hchanged ⊢
    obtain ⟨y, hy⟩ := Option.isSome_iff_exists.mp hchanged
    rw [hy] at hL
    have hsim := (h.of_free (recordCharge_of_name hname)).expireAt hm hle hy (Returns.refl _)
      (hend.imp_left fun he => he y hy) hL
    exact ⟨_, applyRecord_pexpireat hname hparse, hsim⟩
  | @persist head key hchanged =>
    obtain ⟨L', heq, -⟩ := StorageEngine.persist_spec h.live_wf key now
    have hsome : (L.keyspace.visible now key).isSome = true := by
      rw [heq] at hchanged
      cases hv : L.keyspace.visible now key with
      | none => simp [hv] at hchanged
      | some y => rfl
    obtain ⟨y, hy⟩ := Option.isSome_iff_exists.mp hsome
    cases hrecord
    refine ⟨_, ?_, (h.of_free (recordCharge_of_name hname)).persist hm hy (hsafe y hy)⟩
    rw [applyRecord, hname]
    simp [Commands.effect, Commands.persistCmd, Recovery.replayContext]
  | flushdb =>
    have hfind : CommandName.find (ascii "FLUSHDB") = some .flushdb := by decide
    cases hrecord
    refine ⟨_, ?_, (h.of_free rfl).flushdb⟩
    rw [applyRecord, CommandName.ofArgs_cons, hfind]
    simp [Commands.effect, Commands.flushdb, Recovery.replayContext]

/-- The same of a replay that stores nothing that the live engine does not. -/
theorem logs_within (h : Sim T m none L P) (hm : 0 ≤ m) (hpast : L.keyspace.PastBy now T)
    {name : CommandName} {args : List Bytes} {eff : Effect}
    (hname : CommandName.ofArgs args = some name) (hsafe : Safe T m now L name args)
    (hlogs : Commands.Logs now L name args eff) :
    ∃ record P', eff.record = some record ∧ applyRecord env T P record = some P' ∧
      Sim T m none eff.storage P' := by
  obtain ⟨record, hrecord⟩ := hlogs.recorded
  have hroom : Sim T m ((none : Option ℕ).map (· + recordCharge record)) L P := h
  obtain ⟨P', happly, hsim⟩ := hroom.logs hm hpast hname hsafe hlogs hrecord
  exact ⟨record, P', hrecord, happly, hsim⟩

end Sim

end VeloxDb
