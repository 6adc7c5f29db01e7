import VeloxDb.Storage.Invariant

/-!
# The keyspace: keys, values and deadlines

What an engine is for, without shards, versions and memory: a map from keys to a value with an
optional deadline. An item whose deadline has come may still be stored, but it is no longer visible;
removing such items (`Keyspace.Reclaims`) changes nothing that can be seen from then on.
-/

namespace VeloxDb

/-- What a client sees of an entry: its value and its deadline. -/
structure Item where
  value : Bytes
  expiry : Option TimePoint := none
deriving DecidableEq, Repr

/-- The deadline has come. -/
def Item.expired (x : Item) (now : TimePoint) : Bool :=
  match x.expiry with
  | some deadline => deadline ≤ now
  | none => false

/-- What has expired stays so. -/
theorem Item.expired_mono {x : Item} {now later : TimePoint} (hle : now ≤ later)
    (h : x.expired now = true) : x.expired later = true := by
  obtain ⟨value, expiry⟩ := x
  cases expiry with
  | none => exact h
  | some deadline =>
    simp only [Item.expired, decide_eq_true_eq] at h ⊢
    exact h.trans hle

/-- The abstract store: a partial map from keys to items. -/
abbrev Keyspace := Bytes → Option Item

namespace Keyspace

/-- What can be seen at an instant. -/
def visible (K : Keyspace) (now : TimePoint) : Keyspace := fun k => (K k).filter fun x => !x.expired now

/-- Drop the item of one key if it has expired. -/
def reclaim (K : Keyspace) (now : TimePoint) (k : Bytes) : Keyspace :=
  Function.update K k (K.visible now k)

/-- `K'` is `K` without some items that have expired by `now`. -/
def Reclaims (now : TimePoint) (K K' : Keyspace) : Prop :=
  ∀ k, K' k = K k ∨ (K' k = none ∧ K.visible now k = none)

variable {K K' K'' : Keyspace} {now later : TimePoint} {k : Bytes}

/-- A key shows the item it holds, if that has not expired. -/
theorem visible_eq_some {x : Item} :
    K.visible now k = some x ↔ K k = some x ∧ x.expired now = false := by
  simp [visible, Option.filter_eq_some_iff]

/-- A key shows nothing if its item has expired. -/
theorem visible_eq_none :
    K.visible now k = none ↔ ∀ x, K k = some x → x.expired now = true := by
  simp [visible, Option.filter_eq_none_iff]

/-- A key without an item shows nothing. -/
theorem visible_of_eq_none (h : K k = none) : K.visible now k = none := by
  simp [visible, h]

/-- What is visible of a key is fixed by its item. -/
theorem visible_congr (h : K' k = K k) (now : TimePoint) : K'.visible now k = K.visible now k := by
  simp only [visible, h]

/-- What is not visible does not become visible again by waiting. -/
theorem visible_none_mono (hle : now ≤ later) (h : K.visible now k = none) :
    K.visible later k = none :=
  visible_eq_none.mpr fun x hx => Item.expired_mono hle (visible_eq_none.mp h x hx)

/-- Looking at what is visible shows the same later on. -/
theorem visible_visible (hle : now ≤ later) : (K.visible now).visible later = K.visible later := by
  funext k
  cases hk : K.visible now k with
  | none => rw [visible_of_eq_none hk, visible_none_mono hle hk]
  | some x =>
    have hK := (visible_eq_some.mp hk).1
    rw [visible, hk, ← hK]
    rfl

/-- The key that is written shows its item, unless that has expired. -/
@[simp] theorem visible_update_self (v : Option Item) :
    Keyspace.visible (Function.update K k v) now k = v.filter fun x => !x.expired now := by
  simp [visible]

/-- The other keys show what they did. -/
theorem visible_update_of_ne {j : Bytes} (h : j ≠ k) (v : Option Item) :
    Keyspace.visible (Function.update K k v) now j = K.visible now j := by
  simp [visible, Function.update_of_ne h]

namespace Reclaims

/-- Nothing is dropped. -/
theorem refl (now : TimePoint) (K : Keyspace) : Reclaims now K K := fun _ => Or.inl rfl

/-- Dropping expired items cannot be seen, now or later. -/
theorem visible_eq (h : Reclaims now K K') (hle : now ≤ later) :
    K'.visible later = K.visible later := by
  funext k
  rcases h k with hk | ⟨hk, hv⟩
  · simp only [visible, hk]
  · rw [visible_of_eq_none hk, visible_none_mono hle hv]

/-- Dropping items twice. -/
theorem trans (h : Reclaims now K K') (h' : Reclaims now K' K'') : Reclaims now K K'' := by
  intro k
  rcases h' k with hk' | ⟨hk', hv'⟩
  · rcases h k with hk | ⟨hk, hv⟩
    · exact Or.inl (hk'.trans hk)
    · exact Or.inr ⟨hk'.trans hk, hv⟩
  · exact Or.inr ⟨hk', by rw [← h.visible_eq le_rfl]; exact hv'⟩

/-- Nothing is dropped where nothing has expired. -/
theorem eq_of_fresh (h : Reclaims now K K') (hfresh : ∀ k x, K k = some x → x.expired now = false) :
    K' = K := by
  funext k
  rcases h k with hk | ⟨hk, hv⟩
  · exact hk
  · cases hKk : K k with
    | none => exact hk
    | some x =>
      have hexp := visible_eq_none.mp hv x hKk
      rw [hfresh k x hKk] at hexp
      cases hexp

end Reclaims

/-- Reclaiming one key drops its item only if that has expired. -/
theorem reclaim_reclaims (K : Keyspace) (now : TimePoint) (k : Bytes) :
    Reclaims now K (K.reclaim now k) := by
  intro j
  by_cases hjk : j = k
  · subst hjk
    rw [reclaim, Function.update_self]
    cases hv : K.visible now j with
    | none => exact Or.inr ⟨rfl, rfl⟩
    | some x => exact Or.inl (visible_eq_some.mp hv).1.symm
  · exact Or.inl (Function.update_of_ne hjk _ _)

end Keyspace

/-! ## The keyspace of an engine -/

/-- The item of an entry. -/
def Entry.item (x : Entry) : Item := ⟨x.value, x.expiry⟩

/-- An entry expires with its item. -/
@[simp] theorem Entry.item_expired (x : Entry) (now : TimePoint) : x.item.expired now = x.expired now :=
  rfl

namespace StorageEngine

/-- Everything that is stored, expired or not. -/
def keyspace (e : StorageEngine) : Keyspace := fun k => (e.find k).map Entry.item

/-- `e'` is a well-formed engine with the same setup and this keyspace. -/
structure Becomes (e e' : StorageEngine) (K : Keyspace) : Prop where
  setup : e'.setup = e.setup
  wf : e'.WF
  keyspace : e'.keyspace = K

/-- `e'` is `e` without some entries that have expired by `now`. -/
structure Reclaimed (now : TimePoint) (e e' : StorageEngine) : Prop where
  setup : e'.setup = e.setup
  wf : e'.WF
  reclaims : Keyspace.Reclaims now e.keyspace e'.keyspace

variable {e e' e'' : StorageEngine} {K K' : Keyspace} {now : TimePoint} {k : Bytes}

/-- An engine that has become one with fewer expired items. -/
theorem Becomes.reclaimed (h : Becomes e e' K) (hK : Keyspace.Reclaims now e.keyspace K) :
    Reclaimed now e e' :=
  ⟨h.setup, h.wf, h.keyspace ▸ hK⟩

/-- One step after the other: the last keyspace counts. -/
theorem Becomes.trans (h : Becomes e e' K) (h' : Becomes e' e'' K') : Becomes e e'' K' :=
  ⟨h'.setup.trans h.setup, h'.wf, h'.keyspace⟩

/-- Nothing is dropped. -/
theorem Reclaimed.refl (h : e.WF) : Reclaimed now e e := ⟨rfl, h, Keyspace.Reclaims.refl _ _⟩

/-- Dropping entries twice. -/
theorem Reclaimed.trans (h : Reclaimed now e e') (h' : Reclaimed now e' e'') :
    Reclaimed now e e'' :=
  ⟨h'.setup.trans h.setup, h'.wf, h.reclaims.trans h'.reclaims⟩

/-- A key holds the item of the entry that is found under it. -/
theorem keyspace_eq_some {x : Item} :
    e.keyspace k = some x ↔ ∃ y, e.find k = some y ∧ y.item = x := by
  simp [StorageEngine.keyspace]

/-- A change of one entry is one of its item. -/
theorem keyspace_of_find_update {y : Option Entry} (h : e'.find = Function.update e.find k y) :
    e'.keyspace = Function.update e.keyspace k (y.map Entry.item) := by
  funext j
  by_cases hjk : j = k
  · subst hjk
    simp [StorageEngine.keyspace, h]
  · simp [StorageEngine.keyspace, h, Function.update_of_ne hjk]

end StorageEngine

end VeloxDb
