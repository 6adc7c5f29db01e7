import VeloxDb.Recovery.Deadlines
import VeloxDb.Storage.Refinement

/-!
# The engines that operations can reach

`Reachable` are the engines that operations and active expirations lead to, at any readings of the
clock and with any answers. They are well formed, and their deadlines are 64-bit ones, since every
deadline is the result of 64-bit arithmetic or, for `expire_at`, given as a time point.
-/

namespace VeloxDb

open Util

/-- The deadlines are representable. -/
def Keyspace.Representable (K : Keyspace) : Prop := ∀ k x, K k = some x → ∀ d, x.expiry = some d → InI64 d

/-- A time point that an operation is given is a 64-bit count. -/
def Op.Typed : Op → Prop
  | .expireAt _ expireAtTp => InI64 expireAtTp
  | _ => True

namespace StorageEngine

/-- The engines that the operations of the class lead to, from a new one. -/
inductive Reachable (setup : StorageSetup) : StorageEngine → Prop
  | new : Reachable setup { setup }
  | op {e : StorageEngine} (now : TimePoint) (op : Op) (htyped : op.Typed)
      (hreach : Reachable setup e) : Reachable setup (e.apply now op).2
  | activeExpire {e : StorageEngine} (now : TimePoint) (samplePerShard : ℕ)
      (hreach : Reachable setup e) : Reachable setup (e.activeExpire samplePerShard now).2

/-- The engine comes from the first one by an operation: it is well formed, and its items are old
ones or have representable deadlines. -/
structure Steps (e e' : StorageEngine) : Prop where
  setup : e'.setup = e.setup
  wf : e'.WF
  items : ∀ k x, e'.keyspace k = some x → e.keyspace k = some x ∨ ∀ d, x.expiry = some d → InI64 d

namespace Steps

variable {e e' : StorageEngine} {now : TimePoint} {k : Bytes}

/-- Dropping expired items is such a step. -/
theorem of_reclaimed (h : Reclaimed now e e') : Steps e e' := by
  refine ⟨h.setup, h.wf, fun k x hx => ?_⟩
  rcases h.reclaims k with hk | ⟨hk, -⟩
  · exact .inl (hk ▸ hx)
  · rw [hk] at hx
    cases hx

/-- Giving one key an item with a representable deadline is such a step. -/
theorem of_update {y : Option Item} (h : Becomes e e' (Function.update e.keyspace k y))
    (hy : ∀ x, y = some x → ∀ d, x.expiry = some d → InI64 d) : Steps e e' := by
  refine ⟨h.setup, h.wf, fun j x hx => ?_⟩
  rw [h.keyspace] at hx
  by_cases hjk : j = k
  · subst hjk
    rw [Function.update_self] at hx
    exact .inr (hy x hx)
  · rw [Function.update_of_ne hjk] at hx
    exact .inl hx

/-- `set` computes a representable deadline, as it saturates. -/
theorem set (h : e.WF) (key value : Bytes) (ttl : Option ℤ) (condition : SetCondition)
    (now : TimePoint) : Steps e (e.set key value ttl condition now).2 := by
  by_cases hok : (e.set key value ttl condition now).1.code = .ok
  · refine of_update (set_of_ok h hok).2.2 ?_
    rintro _ ⟨⟩ d hd
    obtain ⟨t, -, rfl⟩ := Option.map_eq_some_iff.mp hd
    exact inI64_wrap64 _
  · exact of_reclaimed (set_reclaimed h hok)

/-- `incr_by` sets no deadline. -/
theorem incrBy (h : e.WF) (key : Bytes) (delta : ℤ) (now : TimePoint) :
    Steps e (e.incrBy key delta now).2 := by
  by_cases hok : (e.incrBy key delta now).1.code = .ok
  · obtain ⟨n, -, -, hb⟩ := incrBy_of_ok h hok
    refine of_update hb ?_
    rintro _ ⟨⟩ d hd
    cases hd
  · exact of_reclaimed (incrBy_reclaimed h hok)

/-- `append` sets no deadline. -/
theorem append (h : e.WF) (key suffix : Bytes) (now : TimePoint) :
    Steps e (e.append key suffix now).2 := by
  by_cases hok : (e.append key suffix now).1.code = .ok
  · refine of_update (append_of_ok h hok).2 ?_
    rintro _ ⟨⟩ d hd
    cases hd
  · exact of_reclaimed (append_reclaimed h hok)

/-- `expire_at` sets the deadline it is given. -/
theorem expireAt (h : e.WF) (key : Bytes) {deadline : TimePoint} (hd : InI64 deadline)
    (now : TimePoint) : Steps e (e.expireAt key deadline now).2 := by
  obtain ⟨e', heq, hb⟩ := expireAt_spec h key deadline now
  rw [heq]
  refine of_update hb fun x hx d hxd => ?_
  rw [expiredAt] at hx
  split_ifs at hx
  obtain ⟨y, -, rfl⟩ := Option.map_eq_some_iff.mp hx
  cases hxd
  exact hd

/-- `expire` computes a representable deadline, as it saturates. -/
theorem expire (h : e.WF) (key : Bytes) (ttl : ℤ) (now : TimePoint) :
    Steps e (e.expire key ttl now).2 := by
  by_cases httl : ttl ≤ 0
  · obtain ⟨e', heq, hb⟩ := expire_of_nonpos h key httl now
    rw [heq]
    exact of_update hb fun _ hx => nomatch hx
  · rw [expire_of_pos e key (by omega)]
    exact expireAt h key (inI64_wrap64 _) now

/-- `persist` sets no deadline. -/
theorem persist (h : e.WF) (key : Bytes) (now : TimePoint) : Steps e (e.persist key now).2 := by
  obtain ⟨e', heq, hb⟩ := persist_spec h key now
  rw [heq]
  refine of_update hb fun x hx d hd => ?_
  obtain ⟨y, -, rfl⟩ := Option.map_eq_some_iff.mp hx
  cases hd

/-- `del` leaves the other items as they are. -/
theorem delAll (h : e.WF) (keys : List Bytes) (now : TimePoint) : Steps e (e.delAll keys now).2 := by
  have hb := (delAll_spec h keys now).1
  refine ⟨hb.setup, hb.wf, fun k x hx => .inl ?_⟩
  rw [hb.keyspace, without] at hx
  split_ifs at hx
  exact hx

/-- `flushdb` leaves no item. -/
theorem flushdb (h : e.WF) : Steps e e.flushdb := by
  have hb := flushdb_spec h
  refine ⟨hb.setup, hb.wf, fun k x hx => ?_⟩
  rw [hb.keyspace] at hx
  cases hx

/-- **Every operation is a sequence of steps**, whatever its arguments are. -/
theorem apply (h : e.WF) (now : TimePoint) {op : Op} (htyped : op.Typed) :
    Steps e (e.apply now op).2 := by
  cases op with
  | set key value ttl condition => exact set h key value ttl condition now
  | get key => exact of_reclaimed (get_spec h key now).2
  | del keys => exact delAll h keys now
  | exist keys => exact of_reclaimed (existsCount_reclaimed h keys now)
  | mget keys => exact of_reclaimed (mget_reclaimed h keys now)
  | incrBy key delta => exact incrBy h key delta now
  | append key suffix => exact append h key suffix now
  | strlen key => exact of_reclaimed (strlen_spec h key now).2
  | expire key ttl => exact expire h key ttl now
  | expireAt key expireAtTp => exact expireAt h key htyped now
  | ttl key => exact of_reclaimed (ttl_spec h key now).2
  | persist key => exact persist h key now
  | dbsize => exact of_reclaimed (scan_reclaimed h now)
  | expiresCount => exact of_reclaimed (scan_reclaimed h now)
  | flushdb => exact flushdb h
  | snapshot => exact of_reclaimed (scan_reclaimed h now)

theorem representable (h : Steps e e') (hrep : e.keyspace.Representable) :
    e'.keyspace.Representable := by
  intro k x hx d hd
  rcases h.items k x hx with hold | hnew
  · exact hrep k x hold d hd
  · exact hnew d hd

end Steps

namespace Reachable

variable {setup : StorageSetup} {e : StorageEngine}

/-- What holds of every reachable engine. -/
theorem invariant (h : Reachable setup e) : e.setup = setup ∧ e.WF ∧ e.keyspace.Representable := by
  have hstep : ∀ {e e' : StorageEngine}, Steps e e' →
      e.setup = setup ∧ e.WF ∧ e.keyspace.Representable →
      e'.setup = setup ∧ e'.WF ∧ e'.keyspace.Representable :=
    fun hs h => ⟨hs.setup.trans h.1, hs.wf, hs.representable h.2.2⟩
  induction h with
  | new => exact ⟨rfl, wf_new setup, fun k x hx => nomatch hx⟩
  | op now op htyped _ ih => exact hstep (.apply ih.2.1 now htyped) ih
  | activeExpire now samplePerShard _ ih =>
    exact hstep (.of_reclaimed (activeExpire_reclaimed ih.2.1 samplePerShard now)) ih

/-- No operation changes the setup. -/
theorem setup_eq (h : Reachable setup e) : e.setup = setup := h.invariant.1

theorem wf (h : Reachable setup e) : e.WF := h.invariant.2.1

theorem representable (h : Reachable setup e) : e.keyspace.Representable := h.invariant.2.2

end Reachable

end StorageEngine

end VeloxDb
