import VeloxDb.Recovery.Reachable
import VeloxDb.Recovery.Serving

/-!
# Loading what a snapshot or a rewritten log holds

Both files hold the live entries of an engine, in some order, as `SET` records followed by
`PEXPIREAT` records. Reading them back, through the registry or through `SnapshotStore::load`,
stores one entry after another (`loadEntry`). Since every entry was stored in one engine at once,
all of them are admitted, and the result does not depend on the order.
-/

namespace VeloxDb

open Resp Decimal Util Recovery

/-! ## One entry -/

/-- What is stored of an entry that is loaded at `T`. -/
def SnapshotEntry.loaded (T : ℤ) (entry : SnapshotEntry) : Option Item :=
  match entry.expireAtUnixMs with
  | none => some ⟨entry.value, none⟩
  | some ms => StorageEngine.expiredAt (timepointFromUnixMs ms) T (some ⟨entry.value, none⟩)

/-- Loading keeps the values. -/
theorem SnapshotEntry.value_of_loaded {T : ℤ} {entry : SnapshotEntry} {x : Item}
    (h : entry.loaded T = some x) : x.value = entry.value := by
  unfold loaded at h
  split at h
  · cases h
    rfl
  · rw [StorageEngine.expiredAt] at h
    split_ifs at h
    cases h
    rfl

/-- The storage operations that the records of an entry stand for. -/
def loadEntry (T : ℤ) (P : StorageEngine) (entry : SnapshotEntry) : StorageEngine :=
  let P := (P.set entry.key entry.value none .always T).2
  match entry.expireAtUnixMs with
  | none => P
  | some ms => (P.expireAt entry.key (timepointFromUnixMs ms) T).2

/-- The entry is one of `L`. -/
def SnapshotEntry.In (entry : SnapshotEntry) (L : StorageEngine) : Prop :=
  ∃ y, L.keyspace entry.key = some y ∧ y.value = entry.value

variable {T : ℤ} {L P : StorageEngine} {entry : SnapshotEntry}

/-- An entry of a snapshot is loaded, or it has expired. -/
theorem loadEntry_spec (hL : L.WF) (hP : P.WF) (hs : P.setup = L.setup) (hsub : P.Within L)
    (hin : entry.In L) :
    (P.set entry.key entry.value none .always T).1.code = .ok ∧
      StorageEngine.Becomes P (loadEntry T P entry)
        (Function.update P.keyspace entry.key (entry.loaded T)) := by
  obtain ⟨y, hy, hvalue⟩ := hin
  have ha : P.Admits entry.key entry.value :=
    hvalue ▸ (StorageEngine.admits_of_stored hL hy).mono hL hP hs fun _ => hsub
  obtain ⟨P₁, hset, hb⟩ : ∃ P₁, P.set entry.key entry.value none .always T = _ ∧ _ :=
    StorageEngine.set_of_admits hP none ⟨by simp, by simp⟩ ha
  refine ⟨by rw [hset], ?_⟩
  simp only [loadEntry, SnapshotEntry.loaded, hset]
  cases entry.expireAtUnixMs with
  | none => exact hb
  | some ms =>
    obtain ⟨P₂, heq, hb₂⟩ := StorageEngine.expireAt_spec hb.wf entry.key (timepointFromUnixMs ms) T
    have hv : P₁.keyspace.visible T entry.key = some ⟨entry.value, none⟩ := by
      rw [hb.keyspace, Keyspace.visible_update_self]
      rfl
    rw [hv, hb.keyspace, Function.update_idem] at hb₂
    simp only [heq]
    exact hb.trans hb₂

/-! ## The records of an entry -/

/-- The entry can be written as records that are read back. -/
def SnapshotEntry.Representable (entry : SnapshotEntry) : Prop :=
  ∀ ms, entry.expireAtUnixMs = some ms → InI64 ms

/-- The records of an entry through the registry. -/
theorem applyRecords_snapshotRecords {env : Env}
    (hok : (P.set entry.key entry.value none .always T).1.code = .ok) (hrep : entry.Representable) :
    applyRecords env T P (snapshotRecords entry) = some (loadEntry T P entry) := by
  have hset : applyRecord env T P [ascii "SET", entry.key, entry.value]
      = some (P.set entry.key entry.value none .always T).2 := by
    have hfind : CommandName.find (ascii "SET") = some .set := by decide
    rw [applyRecord, CommandName.ofArgs_cons, hfind]
    simp [Commands.effect, Commands.set, replayContext, Commands.parseSetOptions,
      Commands.SetOptions.effectiveTtl, hok]
  cases hexp : entry.expireAtUnixMs with
  | none => simp [snapshotRecords, applyRecords, hexp, hset, loadEntry]
  | some ms =>
    have hat : ∀ P', applyRecord env T P' [ascii "PEXPIREAT", entry.key, printInt ms] = some _ :=
      fun _ => applyRecord_pexpireat (by decide) (parseI64_printInt (hrep ms hexp))
    simp [snapshotRecords, applyRecords, hexp, hset, hat, loadEntry]

/-- The records of an entry through `SnapshotStore::load`. -/
theorem feed_snapshotRecords
    (hok : (P.set entry.key entry.value none .always T).1.code = .ok) (hrep : entry.Representable)
    (commands : ℕ) :
    feed (SnapshotStore.loadCommand T) (snapshotRecords entry) P commands
      = .inl (loadEntry T P entry, commands + (snapshotRecords entry).length) := by
  have hname : ascii "PEXPIREAT" ≠ ascii "SET" := by decide
  cases hexp : entry.expireAtUnixMs with
  | none => simp [snapshotRecords, hexp, feed, SnapshotStore.loadCommand, hok, loadEntry]
  | some ms =>
    simp [snapshotRecords, hexp, feed, SnapshotStore.loadCommand, hok, loadEntry, hname,
      parseI64_printInt (hrep ms hexp), Nat.add_assoc]

/-! ## All entries -/

/-- The keyspace after entries with different keys have been loaded over it. -/
def overlay (T : ℤ) (entries : List SnapshotEntry) (K : Keyspace) : Keyspace := fun k =>
  match entries.find? fun entry => entry.key == k with
  | some entry => entry.loaded T
  | none => K k

/-- One entry over the others. -/
theorem overlay_cons {entries : List SnapshotEntry} {K : Keyspace}
    (hkey : entry.key ∉ entries.map SnapshotEntry.key) :
    overlay T entries (Function.update K entry.key (entry.loaded T))
      = overlay T (entry :: entries) K := by
  funext k
  by_cases hk : entry.key = k
  · subst hk
    have hnone : entries.find? (fun e => e.key == entry.key) = none := by
      rw [List.find?_eq_none]
      intro e he heq
      exact hkey (List.mem_map.mpr ⟨e, he, by simpa using heq⟩)
    simp [overlay, hnone]
  · have hk' : k ≠ entry.key := fun h => hk h.symm
    simp [overlay, hk, Function.update_of_ne hk']

/-- What the entries are charged with. -/
def entriesMemory (entries : List SnapshotEntry) : ℕ :=
  (entries.map fun entry => entryMemory entry.key entry.value).sum

/-- The records of the entries are charged with the same. -/
theorem sum_recordCharge (entries : List SnapshotEntry) :
    ((entries.flatMap snapshotRecords).map recordCharge).sum = entriesMemory entries := by
  have hset : ∀ key value : Bytes, recordCharge [ascii "SET", key, value] = entryMemory key value :=
    fun _ _ => recordCharge_cons (show CommandName.find (ascii "SET") = some .set by decide) _
  have hexpire : ∀ key ms : Bytes, recordCharge [ascii "PEXPIREAT", key, ms] = 0 := fun _ _ =>
    recordCharge_cons (show CommandName.find (ascii "PEXPIREAT") = some .pexpireat by decide) _
  induction entries with
  | nil => rfl
  | cons entry entries ih =>
    rw [List.flatMap_cons, List.map_append, List.sum_append, ih]
    cases hms : entry.expireAtUnixMs <;>
      simp [snapshotRecords, hms, hset, hexpire, entriesMemory]

/-- Loading an entry takes no more memory than it is charged with. -/
theorem used_loadEntry_le (hP : P.WF) (hmax : P.maxMemoryBytes ≠ 0)
    (hb : StorageEngine.Becomes P (loadEntry T P entry)
      (Function.update P.keyspace entry.key (entry.loaded T))) :
    (loadEntry T P entry).usedMemory ≤ P.usedMemory + entryMemory entry.key entry.value := by
  have hused := hb.used_update hP hmax
  have hitem : StorageEngine.itemMemory entry.key (entry.loaded T)
      ≤ entryMemory entry.key entry.value := by
    cases hx : entry.loaded T with
    | none => exact Nat.zero_le _
    | some x => exact (congrArg (entryMemory entry.key) (SnapshotEntry.value_of_loaded hx)).le
  omega

/-- **Loading entries of one engine** with different keys, in any order: the records are accepted,
by the registry as by `SnapshotStore::load`, the keyspace is overlaid, and the memory grows by no
more than the entries are charged with. -/
theorem loadEntries_spec {entries : List SnapshotEntry} (hL : L.WF) (hP : P.WF)
    (hs : P.setup = L.setup) (hsub : P.Within L)
    (hin : ∀ entry ∈ entries, entry.In L ∧ entry.Representable)
    (hkeys : (entries.map SnapshotEntry.key).Nodup) (T : ℤ) :
    StorageEngine.Becomes P (entries.foldl (loadEntry T) P) (overlay T entries P.keyspace) ∧
      (∀ env, applyRecords env T P (entries.flatMap snapshotRecords)
        = some (entries.foldl (loadEntry T) P)) ∧
      (∀ commands, feed (SnapshotStore.loadCommand T) (entries.flatMap snapshotRecords) P commands
        = .inl (entries.foldl (loadEntry T) P,
            commands + (entries.flatMap snapshotRecords).length)) ∧
      (P.maxMemoryBytes ≠ 0 →
        (entries.foldl (loadEntry T) P).usedMemory ≤ P.usedMemory + entriesMemory entries) := by
  induction entries generalizing P with
  | nil => exact ⟨⟨rfl, hP, rfl⟩, fun _ => rfl, fun _ => rfl, fun _ => le_rfl⟩
  | cons entry entries ih =>
    obtain ⟨hkey, hkeys⟩ := List.nodup_cons.mp (List.map_cons ▸ hkeys)
    obtain ⟨hentry, hrep⟩ := hin entry (by simp)
    obtain ⟨hok, hb⟩ := loadEntry_spec hL hP hs hsub hentry (T := T)
    have hsub₁ : (loadEntry T P entry).Within L := by
      intro k x hx
      rw [hb.keyspace] at hx
      by_cases hk : k = entry.key
      · subst hk
        rw [Function.update_self] at hx
        obtain ⟨y, hy, hvalue⟩ := hentry
        exact ⟨y, hy, hvalue.trans (SnapshotEntry.value_of_loaded hx).symm⟩
      · rw [Function.update_of_ne hk] at hx
        exact hsub k x hx
    obtain ⟨hrest, happly, hfeed, hused⟩ :=
      ih hb.wf (hb.setup.trans hs) hsub₁ (fun e he => hin e (by simp [he])) hkeys
    rw [hb.keyspace, overlay_cons hkey] at hrest
    refine ⟨hb.trans hrest, fun env => ?_, fun commands => ?_, fun hmax => ?_⟩
    · rw [List.flatMap_cons, applyRecords_append, applyRecords_snapshotRecords hok hrep]
      exact happly env
    · rw [List.flatMap_cons, feed_append, feed_snapshotRecords hok hrep]
      simp only [hfeed, List.foldl_cons, List.length_append, Nat.add_assoc]
    · have hfirst := used_loadEntry_le hP hmax hb
      have hothers := hused (by rwa [StorageEngine.maxMemoryBytes, hb.setup])
      simp only [entriesMemory, List.map_cons, List.sum_cons] at hothers ⊢
      rw [List.foldl_cons]
      omega

/-! ## The live entries of an engine -/

/-- A snapshot lists what is visible, each key once. -/
theorem snapshot_spec (h : L.WF) (now : TimePoint) :
    StorageEngine.Becomes L (L.snapshot now).2 (L.keyspace.visible now) ∧
      ((L.snapshot now).1.map SnapshotEntry.key).Nodup ∧
      ∀ entry, entry ∈ (L.snapshot now).1 ↔ ∃ y, L.keyspace.visible now entry.key = some y ∧
        entry.value = y.value ∧ entry.expireAtUnixMs = y.expiry.map unixMs := by
  obtain ⟨e', hscan, hb⟩ := StorageEngine.scan_spec h now
  simp only [StorageEngine.snapshot, hscan]
  refine ⟨hb, ?_, fun entry => ?_⟩
  · rw [List.map_map]
    exact h.nodupKeys_entries.sublist List.filter_sublist
  · simp only [List.mem_map, List.mem_filter, Bool.not_eq_eq_eq_not, Bool.not_true]
    constructor
    · rintro ⟨⟨k, x⟩, ⟨hmem, hlive⟩, rfl⟩
      exact ⟨x.item, StorageEngine.keyspace_visible_of_find (h.mem_entries.mp hmem) hlive, rfl, rfl⟩
    · rintro ⟨y, hy, hvalue, hexp⟩
      obtain ⟨hk, hlive⟩ := Keyspace.visible_eq_some.mp hy
      obtain ⟨x, hx, rfl⟩ := StorageEngine.keyspace_eq_some.mp hk
      refine ⟨⟨entry.key, x⟩, ⟨h.mem_entries.mpr hx, hlive⟩, ?_⟩
      obtain ⟨key, value, ms⟩ := entry
      cases hvalue
      cases hexp
      rfl

/-- What a live item becomes when its entry is loaded at `T`. -/
def Item.reloaded (T : ℤ) (x : Item) : Option Item :=
  match x.expiry with
  | none => some ⟨x.value, none⟩
  | some d => StorageEngine.expiredAt (timepointFromUnixMs (unixMs d)) T (some ⟨x.value, none⟩)

/-- **Reading back the live entries** of an engine into an empty one. -/
theorem reload_spec (hL : L.WF) (hrep : L.keyspace.Representable) (order : IterationOrder)
    (now : TimePoint) (hP : P.WF) (hs : P.setup = L.setup) (hempty : P.keyspace = fun _ => none)
    (T : ℤ) :
    ∃ P', StorageEngine.Becomes P P' (fun k => (L.keyspace.visible now k).bind (Item.reloaded T)) ∧
      (∀ env, applyRecords env T P ((order.arrange (L.snapshot now).1).flatMap snapshotRecords)
        = some P') ∧
      (∀ commands, feed (SnapshotStore.loadCommand T)
          ((order.arrange (L.snapshot now).1).flatMap snapshotRecords) P commands
        = .inl (P', commands
            + ((order.arrange (L.snapshot now).1).flatMap snapshotRecords).length)) ∧
      (P.maxMemoryBytes ≠ 0 → P'.usedMemory ≤ P.usedMemory +
        (((order.arrange (L.snapshot now).1).flatMap snapshotRecords).map recordCharge).sum) := by
  obtain ⟨-, hnodup, hmem⟩ := snapshot_spec hL now
  have hperm := order.perm (L.snapshot now).1
  have hmem' : ∀ entry, entry ∈ order.arrange (L.snapshot now).1 ↔ _ := fun entry =>
    hperm.mem_iff.trans (hmem entry)
  have hin : ∀ entry ∈ order.arrange (L.snapshot now).1, entry.In L ∧ entry.Representable := by
    intro entry hentry
    obtain ⟨y, hy, hvalue, hexp⟩ := (hmem' entry).mp hentry
    have hk := (Keyspace.visible_eq_some.mp hy).1
    refine ⟨⟨y, hk, hvalue.symm⟩, fun ms hms => ?_⟩
    rw [hexp] at hms
    obtain ⟨d, hd, rfl⟩ := Option.map_eq_some_iff.mp hms
    exact inI64_unixMs (hrep _ _ hk d hd)
  obtain ⟨hb, happly, hfeed, hused⟩ := loadEntries_spec hL hP hs
    (fun k x hx => by rw [hempty] at hx; cases hx) hin ((hperm.map _).nodup_iff.mpr hnodup) T
  rw [← sum_recordCharge] at hused
  refine ⟨_, ⟨hb.setup, hb.wf, hb.keyspace.trans ?_⟩, happly, hfeed, hused⟩
  funext k
  rw [overlay, hempty]
  cases hfind : (order.arrange (L.snapshot now).1).find? (fun entry => entry.key == k) with
  | some entry =>
    have hkey : entry.key = k := by simpa using List.find?_some hfind
    obtain ⟨y, hy, hvalue, hexp⟩ := (hmem' entry).mp (List.mem_of_find?_eq_some hfind)
    rw [hkey] at hy
    simp only [hy, Option.bind_some, SnapshotEntry.loaded, Item.reloaded, hvalue, hexp]
    cases y.expiry <;> rfl
  | none =>
    cases hy : L.keyspace.visible now k with
    | none => rfl
    | some y =>
      have hentry := (hmem' ⟨k, y.value, y.expiry.map unixMs⟩).mpr ⟨y, hy, rfl, rfl⟩
      exact absurd (List.find?_eq_none.mp hfind _ hentry) (by simp)

end VeloxDb
