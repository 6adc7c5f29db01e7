import VeloxDb.Storage.Keyspace

/-!
# What the storage operations do to the keyspace

One lemma for each operation: its result as a function of what is visible of the key, and the
keyspace it leaves. Reads and refused writes drop at most expired entries (`Reclaimed`). A write is
refused exactly when the key, the value or the memory limit does not admit it (`Admits`).
-/

namespace VeloxDb

open Decimal Util Keyed

/-- What a condition of `SET` asks of the visible item. -/
def SetCondition.Allows (c : SetCondition) (x : Option Item) : Prop :=
  (c = .nx → x = none) ∧ (c = .xx → x ≠ none)

/-- A `set` without a condition is allowed. -/
theorem SetCondition.Allows.always (x : Option Item) : SetCondition.always.Allows x := by
  simp [SetCondition.Allows]

namespace StorageEngine

variable {e e' : StorageEngine} {k : Bytes} {now : TimePoint}

/-- An entry that has not expired is visible. -/
theorem keyspace_visible_of_find {x : Entry} (hk : e.find k = some x)
    (hx : x.expired now = false) : e.keyspace.visible now k = some x.item :=
  Keyspace.visible_eq_some.mpr ⟨keyspace_eq_some.mpr ⟨x, hk, rfl⟩, hx⟩

/-! ## Erasing and looking up -/

/-- Erasing an entry takes its item out of the keyspace. -/
theorem becomes_eraseEntryLocked (h : e.WF) {x : Entry} (hk : e.find k = some x) :
    Becomes e (e.eraseEntryLocked (e.setup.shardForKey k) k x) (Function.update e.keyspace k none) :=
  ⟨rfl, h.eraseEntryLocked hk, keyspace_of_find_update (find_erase rfl)⟩

/-- Erasing an expired entry takes its item out of the keyspace. -/
theorem becomes_eraseExpired (h : e.WF) {x : Entry} (hk : e.find k = some x) :
    Becomes e (e.eraseExpired (e.setup.shardForKey k) k x) (Function.update e.keyspace k none) :=
  ⟨rfl, h.eraseExpired hk, keyspace_of_find_update (find_erase rfl)⟩

/-- Replacing an entry replaces its item. -/
theorem becomes_updateEntry (h : e.WF) {x y : Entry} (hk : e.find k = some x)
    (hv : y.value = x.value) :
    Becomes e (e.updateEntry k y) (Function.update e.keyspace k (some y.item)) :=
  ⟨rfl, h.updateEntry hk hv, keyspace_of_find_update (find_insert rfl)⟩

/-- The lookup either drops an item that is not visible, or finds a visible one and changes nothing.
-/
theorem findLive_cases (h : e.WF) (k : Bytes) (now : TimePoint) :
    (∃ e', e.findLive k now = (none, e') ∧ e.keyspace.visible now k = none ∧
        Becomes e e' (Function.update e.keyspace k none)) ∨
      ∃ x, e.findLive k now = (some x, e) ∧ e.find k = some x ∧
        e.keyspace.visible now k = some x.item := by
  rw [findLive]
  cases hk : e.find k with
  | none =>
    have hnone : e.keyspace k = none := by simp [StorageEngine.keyspace, hk]
    refine Or.inl ⟨e, rfl, Keyspace.visible_of_eq_none hnone, rfl, h, ?_⟩
    rw [← hnone, Function.update_eq_self]
  | some x =>
    by_cases hx : x.expired now = true
    · refine Or.inl ⟨_, if_pos hx, ?_, becomes_eraseExpired h hk⟩
      refine Keyspace.visible_eq_none.mpr fun y hy => ?_
      obtain ⟨z, hz, rfl⟩ := keyspace_eq_some.mp hy
      rw [hk, Option.some.injEq] at hz
      rw [← hz]
      exact hx
    · rw [Bool.not_eq_true] at hx
      exact Or.inr ⟨x, by simp [hx], rfl, keyspace_visible_of_find hk hx⟩

/-- A key that shows nothing is reclaimed by erasing it. -/
theorem reclaim_of_visible_none (h : e.keyspace.visible now k = none) :
    e.keyspace.reclaim now k = Function.update e.keyspace k none := by
  rw [Keyspace.reclaim, h]

/-- A key that shows an item is not reclaimed. -/
theorem reclaim_of_visible_some {x : Item} (h : e.keyspace.visible now k = some x) :
    e.keyspace.reclaim now k = e.keyspace := by
  rw [Keyspace.reclaim, h, ← (Keyspace.visible_eq_some.mp h).1, Function.update_eq_self]

/-- The lookup in one statement. -/
theorem findLive_spec (h : e.WF) (k : Bytes) (now : TimePoint) :
    Becomes e (e.findLive k now).2 (e.keyspace.reclaim now k) ∧
      (e.findLive k now).1.map Entry.item = e.keyspace.visible now k := by
  rcases findLive_cases h k now with ⟨e', hf, hv, hb⟩ | ⟨x, hf, -, hv⟩
  · rw [hf, reclaim_of_visible_none hv, hv]
    exact ⟨hb, rfl⟩
  · rw [hf, reclaim_of_visible_some hv, hv]
    exact ⟨⟨rfl, h, rfl⟩, rfl⟩

/-- `erase_if_expired_locked` does what the look-up does. -/
theorem eraseIfExpiredLocked_eq (e : StorageEngine) (k : Bytes) (now : TimePoint) :
    (e.eraseIfExpiredLocked k now).2 = (e.findLive k now).2 := by
  simp only [eraseIfExpiredLocked, findLive]
  split
  · rfl
  · split_ifs <;> rfl

/-! ## Writes -/

/-- The sizes and the memory limit admit this value under this key. -/
structure Admits (e : StorageEngine) (k value : Bytes) : Prop where
  keyValid : e.setup.keyValid k = true
  valueValid : e.setup.valueValid value = true
  fits : e.Fits k value

/-- Every value that the first engine stores is stored in the other one, with any deadline. -/
def Within (e' e : StorageEngine) : Prop :=
  ∀ j x, e'.keyspace j = some x → ∃ y, e.keyspace j = some y ∧ y.value = x.value

/-- The same of the entries. -/
theorem Within.find (hsub : e'.Within e) {j : Bytes} {x : Entry} (hx : e'.find j = some x) :
    ∃ x', e.find j = some x' ∧ x'.value = x.value := by
  obtain ⟨y, hy, hvalue⟩ := hsub j x.item (keyspace_eq_some.mpr ⟨x, hx, rfl⟩)
  obtain ⟨x', hx', rfl⟩ := keyspace_eq_some.mp hy
  exact ⟨x', hx', hvalue⟩

/-- An engine that stores less uses less memory. -/
theorem Within.used_le (hsub : e'.Within e) (h : e.WF) (h' : e'.WF) (hs : e'.setup = e.setup)
    (hmax : e.maxMemoryBytes ≠ 0) : e'.usedMemory ≤ e.usedMemory := by
  have hmax' : e'.maxMemoryBytes ≠ 0 := by rwa [maxMemoryBytes, hs]
  rw [h.used_eq_weight hmax, h'.used_eq_weight hmax']
  refine weight_le_of_lookup h'.nodupKeys_entries fun j x hj => ?_
  rw [h'.dlookup_entries] at hj
  obtain ⟨x', hx', hvalue⟩ := hsub.find hj
  exact ⟨x', by rw [h.dlookup_entries, hx'], by rw [entryWeight, entryWeight, hvalue]⟩

/-- The memory beside a key is fixed by what the other keys hold. -/
theorem memoryExcept_congr (h : e.WF) (h' : e'.WF)
    (hK : ∀ j ≠ k, e'.keyspace j = e.keyspace j) : e'.memoryExcept k = e.memoryExcept k := by
  have hfind : ∀ {a b : StorageEngine}, (∀ j ≠ k, a.keyspace j = b.keyspace j) →
      ∀ j ≠ k, ∀ x, a.find j = some x → ∃ x', b.find j = some x' ∧ x'.value = x.value := by
    intro a b hab j hj x hx
    have hxa : b.keyspace j = some x.item := by
      rw [← hab j hj]
      exact keyspace_eq_some.mpr ⟨x, hx, rfl⟩
    obtain ⟨y, hy, hyx⟩ := keyspace_eq_some.mp hxa
    exact ⟨y, hy, congrArg Item.value hyx⟩
  exact le_antisymm (h'.memoryExcept_le h (hfind hK))
    (h.memoryExcept_le h' (hfind fun j hj => (hK j hj).symm))

/-- Only the entries of other keys count for what fits. -/
theorem Fits.congr (h : e.WF) (h' : e'.WF) (hs : e'.setup = e.setup)
    (hK : ∀ j ≠ k, e'.keyspace j = e.keyspace j) {value : Bytes} :
    e'.Fits k value ↔ e.Fits k value := by
  have hmax : e'.maxMemoryBytes = e.maxMemoryBytes := by rw [maxMemoryBytes, hs]; rfl
  rw [Fits, Fits, hmax, memoryExcept_congr h h' hK]

/-- What a key is charged with for its item. -/
def itemMemory (k : Bytes) (x : Option Item) : ℕ := (x.map fun x => entryMemory k x.value).getD 0

/-- A key is charged with its item. -/
theorem keyMemory_eq (e : StorageEngine) (k : Bytes) :
    e.keyMemory k = itemMemory k (e.keyspace k) := by
  rw [keyMemory, itemMemory, keyspace, Option.map_map]
  rfl

/-- A write of one key moves the counter by the difference of its items. -/
theorem Becomes.used_update {x : Option Item}
    (hb : Becomes e e' (Function.update e.keyspace k x)) (h : e.WF) (hmax : e.maxMemoryBytes ≠ 0) :
    e'.usedMemory + e.keyMemory k = e.usedMemory + itemMemory k x := by
  have hmax' : e'.maxMemoryBytes ≠ 0 := by rwa [maxMemoryBytes, hb.setup]
  have hexcept : e'.memoryExcept k = e.memoryExcept k :=
    memoryExcept_congr h hb.wf fun j hj => by rw [hb.keyspace, Function.update_of_ne hj]
  rw [h.used_eq hmax k, hb.wf.used_eq hmax' k, keyMemory_eq e', hb.keyspace, Function.update_self,
    hexcept]
  omega

/-- An engine that stores less admits what the other does. -/
theorem Admits.mono (h : e.WF) (h' : e'.WF) (hs : e'.setup = e.setup)
    (hsub : e.maxMemoryBytes ≠ 0 → e'.Within e)
    {value : Bytes} (ha : e.Admits k value) : e'.Admits k value := by
  have hmax : e'.maxMemoryBytes = e.maxMemoryBytes := by rw [maxMemoryBytes, hs]; rfl
  refine ⟨hs ▸ ha.keyValid, hs ▸ ha.valueValid, ?_⟩
  have hfit := ha.fits
  rw [Fits] at hfit ⊢
  rw [hmax]
  by_cases hzero : e.maxMemoryBytes = 0
  · exact Or.inl hzero
  · refine Or.inr (le_trans (Nat.add_le_add_right ?_ _) (hfit.resolve_left hzero))
    exact h'.memoryExcept_le h fun j _ z hz => (hsub hzero).find hz

/-- What is stored is admitted. -/
theorem admits_of_stored (h : e.WF) {x : Item} (hx : e.keyspace k = some x) : e.Admits k x.value := by
  obtain ⟨y, hy, rfl⟩ := keyspace_eq_some.mp hx
  obtain ⟨hkey, hvalue⟩ := h.sizes k y hy
  refine ⟨hkey, hvalue, ?_⟩
  rw [Fits]
  by_cases hmax : e.maxMemoryBytes = 0
  · exact Or.inl hmax
  · have hused := h.used_eq hmax k
    have hbound := h.bounded hmax
    have hkm : e.keyMemory k = entryMemory k y.item.value := by simp [keyMemory, hy, Entry.item]
    exact Or.inr (by omega)

/-- A look-up that erases an expired entry does not change what fits beside the rest. -/
theorem Fits.reclaim (h : e.WF) {value : Bytes} :
    (e.findLive k now).2.Fits k value ↔ e.Fits k value := by
  have hb := (findLive_spec h k now).1
  refine Fits.congr h hb.wf hb.setup fun j hj => ?_
  rw [hb.keyspace, Keyspace.reclaim, Function.update_of_ne hj]

/-- Storing after the lookup, as `set`, `incr_by` and `append` do. -/
theorem store_of_admits (h : e.WF) {value : Bytes} (ha : e.Admits k value)
    (expiry : Option TimePoint) (now : TimePoint) :
    ∃ e', (e.findLive k now).2.storeEntry k value expiry now = (.ok, e') ∧
      Becomes e e' (Function.update e.keyspace k (some ⟨value, expiry⟩)) := by
  have hb := (findLive_spec h k now).1
  obtain ⟨e', y, hstore, hwf, hsetup, hfind, rfl, rfl⟩ :=
    storeEntry_of_fits hb.wf (hb.setup ▸ ha.keyValid) (hb.setup ▸ ha.valueValid)
      ((Fits.reclaim h).mpr ha.fits) expiry now
  refine ⟨e', hstore, hsetup.trans hb.setup, hwf, ?_⟩
  rw [keyspace_of_find_update hfind, hb.keyspace, Keyspace.reclaim, Function.update_idem]
  rfl

/-- What does not fit is refused, and the engine stays as the look-up has left it. -/
theorem store_of_not_fits (h : e.WF) {value : Bytes} (hfit : ¬ e.Fits k value)
    (expiry : Option TimePoint) :
    (e.findLive k now).2.storeEntry k value expiry now = (.noMemory, (e.findLive k now).2) :=
  storeEntry_of_not_fits (findLive_spec h k now).1.wf (fun hf => hfit ((Fits.reclaim h).mp hf)) _ _

/-- A look-up drops at most an expired entry. -/
theorem reclaimed_findLive (h : e.WF) (k : Bytes) (now : TimePoint) :
    Reclaimed now e (e.findLive k now).2 :=
  (findLive_spec h k now).1.reclaimed (Keyspace.reclaim_reclaims _ _ _)

/-- After the look-up an entry is there exactly if it is visible. -/
theorem find_isSome_findLive (h : e.WF) (k : Bytes) (now : TimePoint) :
    ((e.findLive k now).2.find k).isSome = (e.keyspace.visible now k).isSome := by
  have hK := congrFun (findLive_spec h k now).1.keyspace k
  rw [Keyspace.reclaim, Function.update_self] at hK
  rw [← hK]
  simp [StorageEngine.keyspace]

/-- **`set` that is allowed and admitted** gives the key its value and its deadline. -/
theorem set_of_admits (h : e.WF) {v : Bytes} (ttl : Option ℤ) {c : SetCondition}
    (hc : c.Allows (e.keyspace.visible now k)) (ha : e.Admits k v) :
    ∃ e', e.set k v ttl c now = ({ code := .ok }, e') ∧
      Becomes e e' (Function.update e.keyspace k (some ⟨v, ttl.map (addMillis now)⟩)) := by
  obtain ⟨e', hstore, hb⟩ := store_of_admits h ha (ttl.map (addMillis now)) now
  refine ⟨e', ?_, hb⟩
  simp only [set, ha.keyValid, ha.valueValid, Bool.not_true, Bool.false_eq_true, if_false,
    eraseIfExpiredLocked_eq, find_isSome_findLive h]
  rw [if_neg, hstore]
  obtain ⟨hnx, hxx⟩ := hc
  rintro (⟨rfl, hsome⟩ | ⟨rfl, hnone⟩)
  · simp [hnx rfl] at hsome
  · simp [Option.isSome_iff_ne_none, hxx rfl] at hnone

/-- **`set` that is not allowed or not admitted** says so and changes nothing that can be seen. -/
theorem set_of_refused (h : e.WF) {v : Bytes} (ttl : Option ℤ) {c : SetCondition}
    (hn : ¬ (c.Allows (e.keyspace.visible now k) ∧ e.Admits k v)) :
    (e.set k v ttl c now).1.code ≠ .ok ∧ Reclaimed now e (e.set k v ttl c now).2 := by
  simp only [set, eraseIfExpiredLocked_eq, find_isSome_findLive h]
  by_cases hk : e.setup.keyValid k = true
  swap
  · simp only [hk, Bool.not_false, if_true]
    exact ⟨by simp, Reclaimed.refl h⟩
  by_cases hv : e.setup.valueValid v = true
  swap
  · simp only [hk, hv, Bool.not_true, Bool.not_false, Bool.false_eq_true, if_true, if_false]
    exact ⟨by simp, Reclaimed.refl h⟩
  simp only [hk, hv, Bool.not_true, Bool.false_eq_true, if_false]
  split_ifs with hcond
  · exact ⟨by simp, reclaimed_findLive h k now⟩
  · rw [store_of_not_fits h]
    · exact ⟨by simp, reclaimed_findLive h k now⟩
    · intro hfit
      refine hn ⟨⟨?_, ?_⟩, hk, hv, hfit⟩
      · rintro rfl
        simpa using hcond
      · rintro rfl hnone
        simp [hnone] at hcond

/-- The look-up finds the value that is visible. -/
theorem value_findLive (h : e.WF) (k : Bytes) (now : TimePoint) :
    (e.findLive k now).1.map Entry.value = (e.keyspace.visible now k).map Item.value := by
  rw [← (findLive_spec h k now).2]
  cases (e.findLive k now).1 <;> rfl

/-- The number that `incr_by` starts from is one of 64 bits. -/
theorem inI64_currentInteger {stored : Option Bytes} {i : ℤ} (h : currentInteger stored = some i) :
    InI64 i := by
  cases stored with
  | none =>
    cases h
    decide
  | some value =>
    rw [currentInteger, parseIntegerValue] at h
    split_ifs at h
    exact inI64_of_wholeI64 h

/-- The value `incr_by` computes from what is visible, if there is one. -/
def nextInteger (delta : ℤ) (x : Option Item) : Option ℤ :=
  (currentInteger (x.map Item.value)).bind fun current =>
    if overflows current delta then none else some (current + delta)

/-- What `incr_by` computes without an overflow is a number of 64 bits. -/
theorem inI64_nextInteger {delta n : ℤ} {x : Option Item} (h : nextInteger delta x = some n) :
    InI64 n := by
  rw [nextInteger, Option.bind_eq_some_iff] at h
  obtain ⟨current, hcurrent, hnext⟩ := h
  have hin := inI64_currentInteger hcurrent
  split_ifs at hnext with hover
  cases hnext
  simp only [overflows, Bool.or_eq_true, Bool.and_eq_true, decide_eq_true_eq] at hover
  simp only [InI64] at hin ⊢
  omega

/-- **`incr_by` that has a sum and is admitted** gives the key the sum, without a deadline. -/
theorem incrBy_of_admits (h : e.WF) {delta n : ℤ}
    (hn : nextInteger delta (e.keyspace.visible now k) = some n) (ha : e.Admits k (printInt n)) :
    ∃ e', e.incrBy k delta now = ({ code := .ok, integer := n }, e') ∧
      Becomes e e' (Function.update e.keyspace k (some ⟨printInt n, none⟩)) := by
  obtain ⟨e', hstore, hb⟩ := store_of_admits h ha none now
  refine ⟨e', ?_, hb⟩
  rw [nextInteger, Option.bind_eq_some_iff] at hn
  obtain ⟨current, hcurrent, hnext⟩ := hn
  split_ifs at hnext with hover
  cases hnext
  have hvalid := ha.valueValid
  rw [← (findLive_spec h k now).1.setup] at hvalid
  simp only [incrBy, ha.keyValid, value_findLive h, hcurrent, hover, hvalid, hstore, Bool.not_true,
    Bool.false_eq_true, if_false]

/-- **`incr_by` that has no sum or is not admitted** changes nothing that can be seen. -/
theorem incrBy_of_refused (h : e.WF) {delta : ℤ}
    (hn : ∀ n, nextInteger delta (e.keyspace.visible now k) = some n → ¬ e.Admits k (printInt n)) :
    (e.incrBy k delta now).1.code ≠ .ok ∧ Reclaimed now e (e.incrBy k delta now).2 := by
  have hre := reclaimed_findLive h k now
  simp only [incrBy, value_findLive h]
  by_cases hk : e.setup.keyValid k = true
  swap
  · simp only [hk, Bool.not_false, if_true]
    exact ⟨by simp, Reclaimed.refl h⟩
  simp only [hk, Bool.not_true, Bool.false_eq_true, if_false]
  cases hcurrent : currentInteger ((e.keyspace.visible now k).map Item.value) with
  | none => exact ⟨by simp, hre⟩
  | some current =>
    by_cases hover : overflows current delta = true
    · simp only [hover, if_true]
      exact ⟨by simp, hre⟩
    have hnext := hn (current + delta) (by simp [nextInteger, hcurrent, hover])
    by_cases hv : e.setup.valueValid (printInt (current + delta)) = true
    · have hfit : ¬ e.Fits k (printInt (current + delta)) := fun hf => hnext ⟨hk, hv, hf⟩
      simp only [hover, hre.setup, hv, store_of_not_fits h hfit, Bool.not_true,
        Bool.false_eq_true, if_false]
      exact ⟨by simp, hre⟩
    · simp only [hover, hre.setup, hv, Bool.not_false, Bool.false_eq_true, if_false, if_true]
      exact ⟨by simp, hre⟩

/-- The value `append` computes from what is visible. -/
def appended (suffix : Bytes) (x : Option Item) : Bytes := (x.map Item.value).getD [] ++ suffix

/-- The longer value, as the source computes it. -/
theorem appended_eq (suffix : Bytes) (x : Option Item) :
    (x.map Item.value).getD [] ++ suffix = appended suffix x := rfl

/-- **`append` that is admitted** gives the key the longer value, without a deadline. -/
theorem append_of_admits (h : e.WF) {suffix next : Bytes}
    (hnext : appended suffix (e.keyspace.visible now k) = next) (ha : e.Admits k next) :
    ∃ e', e.append k suffix now = (⟨.ok, next.length⟩, e') ∧
      Becomes e e' (Function.update e.keyspace k (some ⟨next, none⟩)) := by
  obtain ⟨e', hstore, hb⟩ := store_of_admits h ha none now
  refine ⟨e', ?_, hb⟩
  have hvalid := ha.valueValid
  rw [← (findLive_spec h k now).1.setup] at hvalid
  simp only [append, ha.keyValid, value_findLive h, appended_eq, hnext, hvalid, hstore, Bool.not_true,
    Bool.false_eq_true, if_false]

/-- **`append` that is not admitted** changes nothing that can be seen. -/
theorem append_of_refused (h : e.WF) {suffix : Bytes}
    (hn : ¬ e.Admits k (appended suffix (e.keyspace.visible now k))) :
    (e.append k suffix now).1.code ≠ .ok ∧ Reclaimed now e (e.append k suffix now).2 := by
  have hre := reclaimed_findLive h k now
  simp only [append, value_findLive h, appended_eq]
  by_cases hk : e.setup.keyValid k = true
  swap
  · simp only [hk, Bool.not_false, if_true]
    exact ⟨by simp, Reclaimed.refl h⟩
  simp only [hk, Bool.not_true, Bool.false_eq_true, if_false]
  by_cases hv : e.setup.valueValid (appended suffix (e.keyspace.visible now k)) = true
  · have hfit : ¬ e.Fits k (appended suffix (e.keyspace.visible now k)) :=
      fun hf => hn ⟨hk, hv, hf⟩
    simp only [hre.setup, hv, store_of_not_fits h hfit, Bool.not_true, Bool.false_eq_true, if_false]
    exact ⟨by simp, hre⟩
  · simp only [hre.setup, hv, Bool.not_false, if_true]
    exact ⟨by simp, hre⟩

/-- **`del`** counts a visible key and leaves none. -/
theorem del_spec (h : e.WF) (k : Bytes) (now : TimePoint) :
    ∃ e', e.del k now = (if (e.keyspace.visible now k).isSome then 1 else 0, e') ∧
      Becomes e e' (Function.update e.keyspace k none) := by
  rcases findLive_cases h k now with ⟨e', hf, hv, hb⟩ | ⟨x, hf, hk, hv⟩
  · exact ⟨e', by simp [del, hf, hv], hb⟩
  · exact ⟨_, by simp only [del, hf, hv, Option.isSome_some, if_true], becomes_eraseEntryLocked h hk⟩

/-- `del` of no key. -/
theorem delAll_nil (e : StorageEngine) (now : TimePoint) : e.delAll [] now = (0, e) := rfl

/-- `del` of one key and of the rest. -/
theorem delAll_cons (e : StorageEngine) (key : Bytes) (keys : List Bytes) (now : TimePoint) :
    e.delAll (key :: keys) now = ((e.del key now).1 + ((e.del key now).2.delAll keys now).1,
      ((e.del key now).2.delAll keys now).2) := by
  -- the loop, from any number of keys deleted so far
  have hloop : ∀ (keys : List Bytes) (deleted : ℕ) (e : StorageEngine),
      keys.foldl (fun r key => (r.1 + (r.2.del key now).1, (r.2.del key now).2)) (deleted, e)
        = (deleted + (e.delAll keys now).1, (e.delAll keys now).2) := by
    intro keys
    induction keys with
    | nil => exact fun _ _ => rfl
    | cons key keys ih =>
      intro deleted e
      have hone : e.delAll (key :: keys) now = (0 + (e.del key now).1 +
          ((e.del key now).2.delAll keys now).1, ((e.del key now).2.delAll keys now).2) := ih _ _
      rw [List.foldl_cons, ih, hone]
      simp only [Nat.zero_add, Nat.add_assoc]
  rw [delAll, List.foldl_cons, hloop]
  simp only [Nat.zero_add]

/-- `EXPIREAT` on what is visible: a deadline that has come deletes. -/
def expiredAt (deadline now : TimePoint) (x : Option Item) : Option Item :=
  if deadline ≤ now then none else x.map fun x => { x with expiry := some deadline }

/-- **`expire_at`** gives a visible key the deadline, or deletes it if that has passed. -/
theorem expireAt_spec (h : e.WF) (k : Bytes) (deadline now : TimePoint) :
    ∃ e', e.expireAt k deadline now = ((e.keyspace.visible now k).isSome, e') ∧
      Becomes e e' (Function.update e.keyspace k
        (expiredAt deadline now (e.keyspace.visible now k))) := by
  rcases findLive_cases h k now with ⟨e', hf, hv, hb⟩ | ⟨x, hf, hk, hv⟩
  · refine ⟨e', by simp [expireAt, hf, hv], ?_⟩
    rw [hv]
    simpa [expiredAt] using hb
  · simp only [expireAt, hf, hv, expiredAt, Option.isSome_some]
    split_ifs
    · exact ⟨_, rfl, becomes_eraseExpired h hk⟩
    · exact ⟨_, rfl, becomes_updateEntry h hk rfl⟩

/-- **`expire` without time left** deletes. -/
theorem expire_of_nonpos (h : e.WF) (k : Bytes) {ttl : ℤ} (httl : ttl ≤ 0) (now : TimePoint) :
    ∃ e', e.expire k ttl now = ((e.keyspace.visible now k).isSome, e') ∧
      Becomes e e' (Function.update e.keyspace k none) := by
  obtain ⟨e', hdel, hb⟩ := del_spec h k now
  refine ⟨e', ?_, hb⟩
  rw [expire, if_pos httl, hdel]
  cases e.keyspace.visible now k <;> rfl

/-- `expire` with time left is `expire_at`. -/
theorem expire_of_pos (e : StorageEngine) (k : Bytes) {ttl : ℤ} (httl : 0 < ttl) (now : TimePoint) :
    e.expire k ttl now = e.expireAt k (addMillis now ttl) now := by
  rw [expire, if_neg (by omega)]

/-- **`persist`** removes the deadline of a visible key. -/
theorem persist_spec (h : e.WF) (k : Bytes) (now : TimePoint) :
    ∃ e', e.persist k now = (((e.keyspace.visible now k).bind Item.expiry).isSome, e') ∧
      Becomes e e' (Function.update e.keyspace k
        ((e.keyspace.visible now k).map fun x => { x with expiry := none })) := by
  rcases findLive_cases h k now with ⟨e', hf, hv, hb⟩ | ⟨x, hf, hk, hv⟩
  · refine ⟨e', by simp [persist, hf, hv], ?_⟩
    rw [hv]
    exact hb
  · simp only [persist, hf, hv, Option.bind_some, Option.map_some]
    obtain ⟨value, expiry, version, lastAccess⟩ := x
    cases expiry with
    | none =>
      refine ⟨e, rfl, rfl, h, ?_⟩
      have hself := (Keyspace.visible_eq_some.mp hv).1
      rw [← Function.update_eq_self k e.keyspace, hself]
      simp [Entry.item]
    | some deadline => exact ⟨_, rfl, becomes_updateEntry h hk rfl⟩

/-! ## Flushing -/

/-- The loop of `flushdb` over the first `n` shards. -/
def flushShards (e : StorageEngine) (n : ℕ) : ℕ × StorageEngine :=
  (List.range n).foldl
    (fun (released, e) i => let (n, e) := e.flushShard i; (released + n, e)) (0, e)

/-- One more shard is emptied. -/
theorem flushShards_succ (e : StorageEngine) (n : ℕ) : e.flushShards (n + 1)
    = ((e.flushShards n).1 + ((e.flushShards n).2.flushShard n).1,
        ((e.flushShards n).2.flushShard n).2) := by
  simp only [flushShards, List.range_succ, List.foldl_append, List.foldl_cons, List.foldl_nil]

/-- What the loop has done after `n` shards: those are empty, the others and the total are as they
were, and the bytes to release are those of the shards emptied. -/
theorem flushShards_spec (e : StorageEngine) (n : ℕ) :
    (e.flushShards n).1 = ∑ i ∈ Finset.range n, (e.shards i).memoryBytes ∧
      (e.flushShards n).2.setup = e.setup ∧
      (e.flushShards n).2.usedMemory = e.usedMemory ∧
      (∀ i < n, ((e.flushShards n).2.shards i).map = ∅ ∧
        ((e.flushShards n).2.shards i).memoryBytes = 0) ∧
      ∀ i ≥ n, (e.flushShards n).2.shards i = e.shards i := by
  induction n with
  | zero => simp [flushShards]
  | succ n ih =>
    obtain ⟨hrel, hsetup, hused, hdone, hleft⟩ := ih
    rw [flushShards_succ]
    refine ⟨?_, hsetup, hused, fun i hi => ?_, fun i hi => ?_⟩
    · rw [Finset.sum_range_succ, hrel, flushShard, hleft n le_rfl]
    · by_cases hin : i = n
      · subst hin
        simp [flushShard, withShard]
      · simpa [flushShard, withShard, hin] using hdone i (by omega)
    · have hin : i ≠ n := by omega
      simpa [flushShard, withShard, hin] using hleft i (by omega)

/-- **`flushdb`** leaves no key. -/
theorem flushdb_spec (h : e.WF) : Becomes e e.flushdb fun _ => none := by
  obtain ⟨hrel, hsetup, hused, hdone, -⟩ := flushShards_spec e e.setup.shardCount
  have heq : e.flushdb = (e.flushShards e.setup.shardCount).2.releaseMemory
      (e.flushShards e.setup.shardCount).1 := rfl
  have hset : e.flushdb.setup = e.setup := hsetup
  have hshards : e.flushdb.shards = (e.flushShards e.setup.shardCount).2.shards := rfl
  have hzero : e.flushdb.usedMemory = 0 := by
    rw [heq, releaseMemory, hused, hrel]
    by_cases hmax : e.maxMemoryBytes = 0
    · simp [h.unlimited hmax]
    · simp [h.exact hmax]
  have hfind : ∀ k, e.flushdb.find k = none := by
    intro k
    rw [find, hset, hshards, (hdone _ (e.setup.shardForKey_lt k)).1]
    rfl
  refine ⟨hset, ⟨⟨?_, ?_, fun _ => hzero, fun _ => ?_, fun _ => by rw [hzero]; exact Nat.zero_le _⟩,
    fun k x hk => ?_⟩, ?_⟩
  · intro i hi k hk
    rw [hshards, (hdone i (hset ▸ hi)).1] at hk
    exact absurd hk (AList.notMem_empty k)
  · intro i hi
    rw [hshards, (hdone i (hset ▸ hi)).1, (hdone i (hset ▸ hi)).2]
    rfl
  · rw [hzero, Nat.add_zero]
    refine (Finset.sum_eq_zero fun i hi => ?_).symm
    rw [hshards, (hdone i (hset ▸ Finset.mem_range.mp hi)).2]
  · rw [hfind k] at hk
    cases hk
  · funext k
    rw [StorageEngine.keyspace, hfind k]
    rfl

/-! ## Reads -/

/-- **`get`** reads the visible value. -/
theorem get_spec (h : e.WF) (k : Bytes) (now : TimePoint) :
    (e.get k now).1 = (e.keyspace.visible now k).map Item.value ∧
      Reclaimed now e (e.get k now).2 := by
  rcases findLive_cases h k now with ⟨e', hf, hv, -⟩ | ⟨x, hf, hk, hv⟩
  · have hre := reclaimed_findLive h k now
    rw [hf] at hre
    simp only [get, hf, hv]
    exact ⟨rfl, hre⟩
  · simp only [get, hf, hv]
    have hb := becomes_updateEntry h hk (y := { x with lastAccess := now }) rfl
    refine ⟨rfl, hb.reclaimed ?_⟩
    have hself := (Keyspace.visible_eq_some.mp hv).1
    have hitem : ({ x with lastAccess := now } : Entry).item = x.item := rfl
    rw [hitem, ← hself, Function.update_eq_self]
    exact Keyspace.Reclaims.refl now e.keyspace

/-- **`strlen`** is the length of the visible value. -/
theorem strlen_spec (h : e.WF) (k : Bytes) (now : TimePoint) :
    (e.strlen k now).1 = ((e.keyspace.visible now k).map fun x => x.value.length).getD 0 ∧
      Reclaimed now e (e.strlen k now).2 := by
  obtain ⟨hvalue, hre⟩ := get_spec h k now
  refine ⟨?_, hre⟩
  simp only [strlen, hvalue, Option.map_map]
  rfl

/-- **`ttl`** is the time that a visible key has left. -/
theorem ttl_spec (h : e.WF) (k : Bytes) (now : TimePoint) :
    (e.ttl k now).1 = (match e.keyspace.visible now k with
        | none => .missing
        | some x => match x.expiry with
          | none => .noExpiry
          | some deadline => .hasExpiry (max 0 (millisBetween deadline now))) ∧
      Reclaimed now e (e.ttl k now).2 := by
  have hre := reclaimed_findLive h k now
  rcases findLive_cases h k now with ⟨e', hf, hv, -⟩ | ⟨x, hf, -, hv⟩
  · rw [hf] at hre
    simp only [ttl, hf, hv]
    exact ⟨trivial, hre⟩
  · obtain ⟨value, expiry, version, lastAccess⟩ := x
    simp only [ttl, hf, hv, Entry.item]
    cases expiry <;> exact ⟨rfl, Reclaimed.refl h⟩

/-! ## Loops of reads, scans and active expiration -/

/-- A loop of `get`s. -/
theorem foldl_get_reclaimed {α : Type} (f : α → Option Bytes → α) (keys : List Bytes)
    (h : e.WF) (a : α) : Reclaimed now e
      (keys.foldl (fun (acc : α × StorageEngine) key =>
        (f acc.1 (acc.2.get key now).1, (acc.2.get key now).2)) (a, e)).2 := by
  induction keys generalizing e a with
  | nil => exact Reclaimed.refl h
  | cons key keys ih =>
    have hre := (get_spec h key now).2
    exact hre.trans (ih hre.wf _)

/-- `mget` drops at most expired entries. -/
theorem mget_reclaimed (h : e.WF) (keys : List Bytes) (now : TimePoint) :
    Reclaimed now e (e.mget keys now).2 :=
  foldl_get_reclaimed (fun values v => values ++ [v]) keys h []

/-- `exists_count` drops at most expired entries. -/
theorem existsCount_reclaimed (h : e.WF) (keys : List Bytes) (now : TimePoint) :
    Reclaimed now e (e.existsCount keys now).2 :=
  foldl_get_reclaimed (fun count v => if v.isSome then count + 1 else count) keys h 0

/-- Erasing in one shard leaves the others alone. -/
theorem shards_eraseExpired_of_ne (i : ℕ) (k : Bytes) (x : Entry) {j : ℕ} (hj : j ≠ i) :
    (e.eraseExpired i k x).shards j = e.shards j := by
  simp [eraseExpired, eraseEntryLocked, withShard, releaseMemory, hj]

/-- The scan of one shard, from any entry on: expired entries go, the others are collected. -/
theorem foldl_scanEntry (now : TimePoint) (h : e.WF) {i : ℕ} (hi : i < e.setup.shardCount)
    (l : List (Σ _ : Bytes, Entry)) (hl : l.NodupKeys)
    (hfind : ∀ p ∈ l, e.find p.1 = some p.2 ∧ e.setup.shardForKey p.1 = i)
    (acc : List (Σ _ : Bytes, Entry)) :
    ∃ e', l.foldl (scanEntry now i) (acc, e) = (acc ++ l.filter (fun p => !p.2.expired now), e') ∧
      e'.WF ∧ e'.setup = e.setup ∧ (∀ j ≠ i, e'.shards j = e.shards j) ∧
      ∀ k, e'.find k = if k ∈ l.keys then (e.find k).filter (fun x => !x.expired now)
        else e.find k := by
  induction l generalizing e acc with
  | nil => exact ⟨e, by simp, h, rfl, fun _ _ => rfl, fun k => by simp⟩
  | cons p l ih =>
    obtain ⟨k, x⟩ := p
    obtain ⟨hk, hl⟩ := List.nodupKeys_cons.mp hl
    obtain ⟨hkx, hki⟩ : e.find k = some x ∧ e.setup.shardForKey k = i := hfind ⟨k, x⟩ (by simp)
    have hfilter : (some x).filter (fun x => !x.expired now)
        = if x.expired now then none else some x := by
      cases hx : x.expired now <;> simp [Option.filter, hx]
    simp only [List.foldl_cons, scanEntry]
    by_cases hx : x.expired now = true
    · have hb := becomes_eraseExpired h hkx
      have hfind' : (e.eraseExpired i k x).find = Function.update e.find k none := by
        rw [← hki]
        exact find_erase rfl
      rw [hki] at hb
      rw [if_pos hx]
      obtain ⟨e', hfold, hwf, hsetup, hshards, hfinal⟩ := ih hb.wf (hb.setup ▸ hi) hl
        (fun q hq => by
          have hqk : q.1 ≠ k := by
            have hmem : q.1 ∈ l.keys := List.mem_keys_of_mem hq
            rintro rfl
            exact hk hmem
          rw [hfind', Function.update_of_ne hqk]
          exact hfind q (by simp [hq])) acc
      refine ⟨e', by simpa [hx] using hfold, hwf, hsetup, fun j hj => ?_, fun j => ?_⟩
      · rw [hshards j hj, shards_eraseExpired_of_ne _ _ _ hj]
      · rw [hfinal j, hfind']
        by_cases hjk : j = k
        · subst hjk
          simp [hkx, hfilter, hx]
        · simp [hjk]
    · obtain ⟨e', hfold, hwf, hsetup, hshards, hfinal⟩ := ih h hi hl
        (fun q hq => hfind q (by simp [hq])) (acc ++ [⟨k, x⟩])
      rw [if_neg hx]
      refine ⟨e', by simpa [hx] using hfold, hwf, hsetup, hshards, fun j => ?_⟩
      rw [hfinal j]
      by_cases hjk : j = k
      · subst hjk
        simp [hkx, hfilter, hx]
      · simp [hjk]

/-- The scan of one shard. -/
theorem scanShard_reclaimed (h : e.WF) {i : ℕ} (hi : i < e.setup.shardCount)
    (acc : List (Σ _ : Bytes, Entry)) (now : TimePoint) :
    Reclaimed now e (scanShard now (acc, e) i).2 := by
  obtain ⟨e', hscan, hwf, hsetup, -, hfind⟩ := foldl_scanEntry now h hi
    (e.shards i).map.entries (e.shards i).map.nodupKeys (fun p hp => h.find_of_mem_shard hi hp) acc
  rw [scanShard, hscan]
  refine ⟨hsetup, hwf, fun k => ?_⟩
  simp only [StorageEngine.keyspace, hfind k]
  split_ifs with hk
  · cases hx : e.find k with
    | none => exact .inl rfl
    | some x =>
      cases hexp : x.expired now with
      | false => exact .inl (by simp [Option.filter, hexp])
      | true =>
        refine .inr ⟨by simp [Option.filter, hexp], Keyspace.visible_eq_none.mpr ?_⟩
        rintro _ hy
        rw [StorageEngine.keyspace, hx] at hy
        cases hy
        exact hexp
  · exact .inl rfl

/-- **A scan** drops every expired entry and collects the others. -/
theorem scan_spec (h : e.WF) (now : TimePoint) :
    ∃ e', e.scan now = (e.entries.filter (fun p => !p.2.expired now), e') ∧
      Becomes e e' (e.keyspace.visible now) := by
  -- after `n` shards, those below `n` are scanned and the others are untouched
  have hloop : ∀ n ≤ e.setup.shardCount, ∃ e',
      (List.range n).foldl (scanShard now) ([], e)
        = (((List.range n).flatMap fun i => (e.shards i).map.entries).filter
            (fun p => !p.2.expired now), e') ∧
      e'.WF ∧ e'.setup = e.setup ∧ (∀ j ≥ n, e'.shards j = e.shards j) ∧
      ∀ k, e'.find k = if e.setup.shardForKey k < n then
        (e.find k).filter (fun x => !x.expired now) else e.find k := by
    intro n
    induction n with
    | zero => exact fun _ => ⟨e, by simp, h, rfl, fun _ _ => rfl, fun k => by simp⟩
    | succ n ih =>
      intro hn
      obtain ⟨e₁, hfold, hwf, hsetup, hshards, hfind⟩ := ih (by omega)
      have hcount : n < e₁.setup.shardCount := by rw [hsetup]; omega
      obtain ⟨e₂, hscan, hwf₂, hsetup₂, hshards₂, hfind₂⟩ := foldl_scanEntry now hwf hcount
        (e₁.shards n).map.entries (e₁.shards n).map.nodupKeys (fun p hp => hwf.find_of_mem_shard hcount hp)
        (((List.range n).flatMap fun i => (e.shards i).map.entries).filter
          (fun p => !p.2.expired now))
      refine ⟨e₂, ?_, hwf₂, hsetup₂.trans hsetup, fun j hj => ?_, fun k => ?_⟩
      · rw [List.range_succ, List.foldl_append, hfold, List.foldl_cons, List.foldl_nil, scanShard,
          hscan, hshards n le_rfl]
        simp
      · rw [hshards₂ j (by omega), hshards j (by omega)]
      · have hmem : k ∈ (e₁.shards n).map.entries.keys → e.setup.shardForKey k = n :=
          fun hk => hsetup ▸ hwf.home n hcount k hk
        rw [hfind₂ k]
        by_cases hkn : e.setup.shardForKey k = n
        · have hsame : e₁.find k = e.find k := by rw [hfind k, if_neg (by omega)]
          rw [hsame, if_pos (show e.setup.shardForKey k < n + 1 by omega)]
          split_ifs with hkeys
          · rfl
          · have hnone : e.find k = none := by
              rw [find, hkn, ← hshards n le_rfl]
              exact AList.lookup_eq_none.mpr hkeys
            rw [hnone]
            rfl
        · rw [if_neg (fun hk => hkn (hmem hk)), hfind k]
          exact if_congr (by omega) rfl rfl
  obtain ⟨e', hscan, hwf, hsetup, -, hfind⟩ := hloop _ le_rfl
  refine ⟨e', hscan, hsetup, hwf, ?_⟩
  funext k
  rw [StorageEngine.keyspace, hfind k, if_pos (e.setup.shardForKey_lt k)]
  simp only [Keyspace.visible, StorageEngine.keyspace]
  cases e.find k with
  | none => rfl
  | some x => by_cases hx : x.expired now = true <;> simp [Option.filter, hx]

/-- A walk over the shards drops at most expired entries. -/
theorem scan_reclaimed (h : e.WF) (now : TimePoint) : Reclaimed now e (e.scan now).2 := by
  obtain ⟨e', hscan, hb⟩ := scan_spec h now
  rw [hscan]
  refine hb.reclaimed fun k => ?_
  cases hv : e.keyspace.visible now k with
  | none => exact Or.inr ⟨rfl, rfl⟩
  | some x => exact Or.inl (Keyspace.visible_eq_some.mp hv).1.symm

/-- The sampling loop only erases expired entries of its shard. -/
theorem activeExpireLoop_reclaimed {i : ℕ} (left pos sampled count : ℕ) (h : e.WF)
    (hi : i < e.setup.shardCount) :
    Reclaimed now e (activeExpireLoop now i left pos sampled count e).2.2 := by
  induction left generalizing e pos sampled count with
  | zero => exact Reclaimed.refl h
  | succ left ih =>
    simp only [activeExpireLoop_succ]
    split
    · exact Reclaimed.refl h
    · next key entry hget =>
      obtain ⟨hfind, hhome⟩ : e.find key = some entry ∧ e.setup.shardForKey key = i :=
        h.find_of_mem_shard hi (List.mem_of_getElem? hget)
      by_cases hexp : entry.expired now = true
      · rw [if_pos hexp]
        have hb := becomes_eraseEntryLocked h hfind
        rw [hhome] at hb
        have hvis : e.keyspace.visible now key = none := by
          refine Keyspace.visible_eq_none.mpr fun x hx => ?_
          obtain ⟨y, hy, rfl⟩ := keyspace_eq_some.mp hx
          rw [hfind, Option.some.injEq] at hy
          rw [← hy]
          exact hexp
        have hre : Reclaimed now e (e.eraseEntryLocked i key entry) := by
          refine hb.reclaimed ?_
          rw [← reclaim_of_visible_none hvis]
          exact Keyspace.reclaim_reclaims _ _ _
        exact hre.trans (ih _ _ _ hre.wf (hre.setup ▸ hi))
      · rw [if_neg hexp]
        exact ih _ _ _ h hi

/-- The cursor of a shard is not part of the keyspace. -/
theorem reclaimed_cursor (h : e.WF) {i : ℕ} (hi : i < e.setup.shardCount) (cursor : ℕ) :
    Reclaimed now e (e.withShard i { e.shards i with expireCursor := cursor }) := by
  refine ⟨rfl, h.replaceShard hi (h.home i hi) (h.memory i hi) h.unlimited (fun _ => rfl) h.bounded
    (fun k x hk hki => h.sizes k x (by rwa [find, hki])), ?_⟩
  intro k
  refine Or.inl ?_
  simp only [StorageEngine.keyspace, find_withShard]
  split_ifs with hk
  · rw [find, hk]
  · rfl

/-- `active_expire` in one shard drops at most expired entries. -/
theorem activeExpireShard_reclaimed (h : e.WF) {i : ℕ} (hi : i < e.setup.shardCount)
    (samplePerShard count : ℕ) (now : TimePoint) :
    Reclaimed now e (activeExpireShard now samplePerShard (count, e) i).2 := by
  simp only [activeExpireShard]
  by_cases hsize : (e.shards i).map.entries.length = 0
  · rw [if_pos hsize]
    exact reclaimed_cursor h hi 0
  · rw [if_neg hsize]
    have hloop : Reclaimed now e _ := activeExpireLoop_reclaimed
      (min samplePerShard (e.shards i).map.entries.length)
      ((e.shards i).expireCursor % (e.shards i).map.entries.length) 0 count h hi
    exact hloop.trans (reclaimed_cursor hloop.wf (hloop.setup ▸ hi) _)

/-- **`active_expire`** drops at most expired entries. -/
theorem activeExpire_reclaimed (h : e.WF) (samplePerShard : ℕ) (now : TimePoint) :
    Reclaimed now e (e.activeExpire samplePerShard now).2 := by
  have hloop : ∀ (l : List ℕ) {e : StorageEngine} (count : ℕ), e.WF →
      (∀ i ∈ l, i < e.setup.shardCount) →
      Reclaimed now e (l.foldl (activeExpireShard now samplePerShard) (count, e)).2 := by
    intro l
    induction l with
    | nil => exact fun _ h _ => Reclaimed.refl h
    | cons i l ih =>
      intro e count h hl
      have hone := activeExpireShard_reclaimed h (hl i (by simp)) samplePerShard count now
      exact hone.trans (ih _ hone.wf fun j hj => hone.setup ▸ hl j (by simp [hj]))
  have hall := hloop (List.range e.setup.shardCount) 0 h fun i hi => List.mem_range.mp hi
  exact ⟨hall.setup, ⟨⟨hall.wf.home, hall.wf.memory, hall.wf.unlimited, hall.wf.exact,
    hall.wf.bounded⟩, hall.wf.sizes⟩, hall.reclaims⟩

end StorageEngine

end VeloxDb
