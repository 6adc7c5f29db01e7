import VeloxDb.Common.Reservation

/-!
# A program of one section happens at once

A program that takes one lock, works behind it and gives it back when it is done has a single
section. Other threads cannot see the part while it is locked. So when nothing is ever refused (a
limit of zero is none), the threads together do what one thread would do that makes the same calls
one after another, in the order in which the locks were given back (`serially`): each call happens at
one instant between its start and its end.
-/

namespace Reservation

variable {ι S α β : Type}

/-! ## One section -/

namespace Prog

/-- A program that works on one part, which is locked. -/
def Within (i : ι) : Prog ι S α → Prop
  | .done _ => True
  | .lock _ _ => False
  | .unlock _ _ => False
  | .access j _ next => j = i ∧ ∀ s, (next s).Within i
  | .reserve _ next => ∀ b, (next b).Within i
  | .release _ next => next.Within i
  | .count _ next => next.Within i

/-- The rest of a section: work on the part, then unlock it and return. -/
def Inside (i : ι) : Prog ι S α → Prop
  | .done _ => False
  | .lock _ _ => False
  | .unlock j next => j = i ∧ ∃ result, next = .done result
  | .access j _ next => j = i ∧ ∀ s, (next s).Inside i
  | .reserve _ next => ∀ b, (next b).Inside i
  | .release _ next => next.Inside i
  | .count _ next => next.Inside i

/-- A program that returns at once or is a section. -/
def OneSection : Prog ι S α → Prop
  | .done _ => True
  | .lock i next => next.Inside i
  | _ => False

variable {i : ι} {p : Prog ι S α}

/-- Two programs in the section are so together. -/
theorem Within.bind {f : α → Prog ι S β} (h : p.Within i) (hf : ∀ a, (f a).Within i) :
    (p >>= f).Within i := by
  show (p.bind f).Within i
  induction p with
  | done a => exact hf a
  | lock => exact h.elim
  | unlock => exact h.elim
  | access j write next ih => exact ⟨h.1, fun s => ih s (h.2 s)⟩
  | reserve n next ih => exact fun b => ih b (h b)
  | release n next ih => exact ih h
  | count n next ih => exact ih h

/-- A program in the section and one that leaves it. -/
theorem Within.inside {f : α → Prog ι S β} (h : p.Within i) (hf : ∀ a, (f a).Inside i) :
    (p >>= f).Inside i := by
  show (p.bind f).Inside i
  induction p with
  | done a => exact hf a
  | lock => exact h.elim
  | unlock => exact h.elim
  | access j write next ih => exact ⟨h.1, fun s => ih s (h.2 s)⟩
  | reserve n next ih => exact fun b => ih b (h b)
  | release n next ih => exact ih h
  | count n next ih => exact ih h

/-- A function of the result. -/
theorem Inside.map (h : p.Inside i) (f : α → β) : (p >>= fun a => pure (f a)).Inside i := by
  show (p.bind fun a => .done (f a)).Inside i
  induction p with
  | done => exact h.elim
  | lock => exact h.elim
  | unlock j next ih =>
    obtain ⟨rfl, result, rfl⟩ := h
    exact ⟨rfl, f result, rfl⟩
  | access j write next ih => exact ⟨h.1, fun s => ih s (h.2 s)⟩
  | reserve n next ih => exact fun b => ih b (h b)
  | release n next ih => exact ih h
  | count n next ih => exact ih h

/-- The result of a section may be converted. -/
theorem OneSection.map (h : p.OneSection) (f : α → β) :
    (p >>= fun a => pure (f a)).OneSection := by
  cases p with
  | done => trivial
  | lock i next => exact Inside.map h f
  | unlock => exact h.elim
  | access => exact h.elim
  | reserve => exact h.elim
  | release => exact h.elim
  | count => exact h.elim

variable [DecidableEq ι]

/-- Without a limit nothing is counted. -/
theorem solo_used (p : Prog ι S α) {st : Store ι S} (hused : st.used = 0) :
    (p.solo 0 st).2.used = 0 := by
  induction p generalizing st with
  | done => exact hused
  | lock i next ih => exact ih hused
  | unlock i next ih => exact ih hused
  | access i write next ih => exact ih _ hused
  | reserve n next ih =>
    have hgranted : reserved 0 st.used n = some st.used := if_pos (.inr rfl)
    rw [solo, hgranted]
    exact ih true hused
  | release n next ih =>
    refine ih ?_
    show st.used - n = 0
    rw [hused, Nat.zero_sub]
  | count n next ih => exact ih hused

/-- The call `p`, begun when the part was `base`, has come to `q`: it has left the part as `part` and
has added `n` to the count. -/
def Continues (p q : Prog ι S α) (i : ι) (base part : S) (n : ℕ) : Prop :=
  ∀ st : Store ι S, st.used = 0 → st.shards i = base →
    p.solo 0 st = q.solo 0
      { st with shards := Function.update st.shards i part, counted := st.counted + n }

/-- The section starts with the lock. -/
theorem continues_lock (q : Prog ι S α) (i : ι) (base : S) :
    Continues (.lock i q) q i base base 0 := by
  intro st _ hbase
  rw [← hbase, Function.update_eq_self]
  rfl

namespace Continues

variable {q : Prog ι S α} {base part : S} {n : ℕ}

/-- An access goes on in the section. -/
theorem access {write : S → S} {next : S → Prog ι S α}
    (h : Continues p (.access i write next) i base part n) :
    Continues p (next part) i base (write part) n := by
  intro st hused hbase
  rw [h st hused hbase, solo]
  simp only [Function.update_self, Function.update_idem]

/-- A reservation goes on in the section. -/
theorem reserve {k : ℕ} {next : Bool → Prog ι S α}
    (h : Continues p (.reserve k next) i base part n) : Continues p (next true) i base part n := by
  intro st hused hbase
  have hgranted : reserved 0 st.used k = some st.used := if_pos (.inr rfl)
  rw [h st hused hbase, solo]
  simp only [hgranted]

/-- A release goes on in the section. -/
theorem release {k : ℕ} (h : Continues p (.release k q) i base part n) :
    Continues p q i base part n := by
  intro st hused hbase
  rw [h st hused hbase, solo]
  simp only [hused, Nat.zero_sub]

/-- A count goes on in the section. -/
theorem count {k : ℕ} (h : Continues p (.count k q) i base part n) :
    Continues p q i base part (n + k) := by
  intro st hused hbase
  rw [h st hused hbase, solo]
  simp only [Nat.add_assoc]

end Continues

end Prog

/-! ## Calls one after another -/

variable {τ κ : Type} [DecidableEq τ] [DecidableEq ι]

/-- One thread makes the calls: the store, and what the last call of each thread returned. -/
def serially (prog : κ → Prog ι S α) (st : Store ι S) (order : List (τ × κ)) :
    Store ι S × (τ → Option α) :=
  order.foldl (fun b x =>
    (((prog x.2).solo 0 b.1).2, Function.update b.2 x.1 (some ((prog x.2).solo 0 b.1).1)))
    (st, fun _ => none)

/-- The calls of one thread. -/
def callsOf (t : τ) (order : List (τ × κ)) : List κ := (order.filter (·.1 = t)).map Prod.snd

section Order

variable {prog : κ → Prog ι S α} {st : Store ι S} {order : List (τ × κ)} {t s : τ} {c : κ}

/-- One more call behind the others. -/
theorem serially_snoc : serially prog st (order ++ [(t, c)]) =
    (((prog c).solo 0 (serially prog st order).1).2,
      Function.update (serially prog st order).2 t
        (some ((prog c).solo 0 (serially prog st order).1).1)) := by
  rw [serially, List.foldl_append]
  rfl

omit [DecidableEq ι] in
/-- One more call, of this thread or of another. -/
theorem callsOf_snoc : callsOf s (order ++ [(t, c)]) =
    callsOf s order ++ (if t = s then [c] else []) := by
  rw [callsOf, callsOf, List.filter_append, List.map_append]
  congr 1
  by_cases hts : t = s <;> simp [hts]

/-- Run one after the other, the calls leave the counter alone if there is no limit. -/
theorem used_serially (hst : st.used = 0) (order : List (τ × κ)) :
    (serially prog st order).1.used = 0 := by
  induction order using List.reverseRecOn with
  | nil => exact hst
  | append_singleton order x ih =>
    obtain ⟨t, c⟩ := x
    rw [serially_snoc]
    exact (prog c).solo_used ih

end Order

/-! ## Where a thread is between two instants -/

section Linear

variable (prog : κ → Prog ι S α)

/-- Where a thread is, given the parts after the calls that have happened (`base`), the parts now, and
what the last call that has happened for it returned. It is between two calls, on its way back from
one, or in one that has not happened yet: before its section, or in it. -/
inductive Stage (base part : ι → S) (last : Option α) :
    Option ι → Option κ → ℕ → Task ι S α → Prop
  | idle : Stage base part last none none 0 (.idle last)
  | returning (result : α) (hlast : last = some result) :
    Stage base part last none none 0 (.running (.done result))
  | called (c : κ) : Stage base part last none (some c) 0 (.running (prog c))
  | inside (i : ι) (c : κ) (n : ℕ) (q : Prog ι S α) (hq : q.Inside i)
    (hpath : Prog.Continues (prog c) q i (base i) (part i) n) :
    Stage base part last (some i) (some c) n (.running q)
  | releasing (i : ι) (c : κ) (n k : ℕ) (q : Prog ι S α) (hq : q.Inside i)
    (hpath : Prog.Continues (prog c) q i (base i) (part i) n) :
    Stage base part last (some i) (some c) n (.releasing k 0 q)

variable {prog}

/-- Nobody else touches the part that a thread has locked. -/
theorem Stage.frame {base part base' part' : ι → S} {last : Option α} {lk : Option ι} {c : Option κ}
    {n : ℕ} {task : Task ι S α} (h : Stage prog base part last lk c n task)
    (hbase : ∀ i, lk = some i → base' i = base i) (hpart : ∀ i, lk = some i → part' i = part i) :
    Stage prog base' part' last lk c n task := by
  cases h with
  | idle => exact .idle
  | returning result hlast => exact .returning result hlast
  | called c => exact .called c
  | inside i c n q hq hpath =>
    refine .inside i c n q hq ?_
    rwa [hbase i rfl, hpart i rfl]
  | releasing i c n k q hq hpath =>
    refine .releasing i c n k q hq ?_
    rwa [hbase i rfl, hpart i rfl]

variable [Fintype τ]

/-- **The invariant.** The calls in `order` have happened. A part that nobody has locked is as they
have left it; `pending` is the call of each thread that has not happened yet, and `added` what it has
added to the count. -/
structure Linear (prog : κ → Prog ι S α) (st : Store ι S) (m : Threads τ κ ι S α)
    (order : List (τ × κ)) (lockOf : τ → Option ι) (pending : τ → Option κ) (added : τ → ℕ) :
    Prop where
  owner : Threads.Owns m.owner lockOf
  used : m.used = 0
  counted : m.counted = (serially prog st order).1.counted + ∑ t, added t
  free : ∀ i, m.owner i = none → m.shards i = (serially prog st order).1.shards i
  started : ∀ t, m.started t = callsOf t order ++ (pending t).toList
  stage : ∀ t, Stage prog (serially prog st order).1.shards m.shards
    ((serially prog st order).2 t) (lockOf t) (pending t) (added t) (m.tasks t)

namespace Linear

variable {st : Store ι S} {m m' : Threads τ κ ι S α} {order : List (τ × κ)} {lockOf : τ → Option ι}
  {pending : τ → Option κ} {added : τ → ℕ} {t : τ} {task : Task ι S α}

/-- A turn in which nothing happens: only the part that the thread has locked may change. -/
theorem turn (h : Linear prog st m order lockOf pending added) {n : ℕ}
    (htasks : m'.tasks = Function.update m.tasks t task) (howner : m'.owner = m.owner)
    (hstarted : m'.started = m.started) (hused : m'.used = m.used)
    (hcounted : m'.counted = m.counted + n)
    (hshards : ∀ i, lockOf t ≠ some i → m'.shards i = m.shards i)
    (hstage : Stage prog (serially prog st order).1.shards m'.shards
      ((serially prog st order).2 t) (lockOf t) (pending t) (added t + n) task) :
    Linear prog st m' order lockOf pending (Function.update added t (added t + n)) where
  owner := howner ▸ h.owner
  used := hused.trans h.used
  counted := by
    have hsum := Keyed.sum_update_add (Finset.mem_univ t) added (added t + n)
    have hbefore := h.counted
    omega
  free i hi := by
    rw [howner] at hi
    rw [hshards i (h.owner.free hi t)]
    exact h.free i hi
  started s := hstarted ▸ h.started s
  stage s := by
    rw [htasks]
    by_cases hs : s = t
    · subst hs
      simpa only [Function.update_self] using hstage
    · simp only [Function.update_of_ne hs]
      exact (h.stage s).frame (fun _ _ => rfl) fun i hi => hshards i (h.owner.other hs hi)

/-- A turn that only moves the thread on. -/
theorem withTask (h : Linear prog st m order lockOf pending added)
    (hstage : Stage prog (serially prog st order).1.shards m.shards
      ((serially prog st order).2 t) (lockOf t) (pending t) (added t) task) :
    Linear prog st (m.withTask t task) order lockOf pending added := by
  have hturn : Linear prog st (m.withTask t task) order lockOf pending
      (Function.update added t (added t + 0)) :=
    h.turn rfl rfl rfl rfl rfl (fun _ _ => rfl) hstage
  rwa [Nat.add_zero, Function.update_eq_self] at hturn

/-- A thread begins a call. -/
theorem start (h : Linear prog st m order lockOf pending added) (c : κ)
    (hlock : lockOf t = none) (hpending : pending t = none) (hadded : added t = 0)
    (htasks : m'.tasks = Function.update m.tasks t (.running (prog c)))
    (hstarted : m'.started = Function.update m.started t (m.started t ++ [c]))
    (hstore : m'.toStore = m.toStore) (howner : m'.owner = m.owner) :
    Linear prog st m' order lockOf (Function.update pending t (some c)) added where
  owner := howner ▸ h.owner
  used := (congrArg Store.used hstore).trans h.used
  counted := (congrArg Store.counted hstore).trans h.counted
  free i hi := by
    rw [hstore]
    exact h.free i (howner ▸ hi)
  started s := by
    rw [hstarted]
    by_cases hs : s = t
    · subst hs
      simp [h.started s, hpending]
    · simpa only [Function.update_of_ne hs] using h.started s
  stage s := by
    rw [htasks, hstore]
    by_cases hs : s = t
    · subst hs
      simp only [Function.update_self, hlock, hadded]
      exact .called c
    · simpa only [Function.update_of_ne hs] using h.stage s

/-- A thread enters its section. -/
theorem lock (h : Linear prog st m order lockOf pending added) {i : ι} {c : κ} {q : Prog ι S α}
    (hprog : prog c = .lock i q) (hq : q.Inside i) (hfree : m.owner i = none)
    (hlock : lockOf t = none) (hpending : pending t = some c) (hadded : added t = 0)
    (htasks : m'.tasks = Function.update m.tasks t (.running q))
    (howner : m'.owner = Function.update m.owner i (some t))
    (hstarted : m'.started = m.started) (hstore : m'.toStore = m.toStore) :
    Linear prog st m' order (Function.update lockOf t (some i)) pending added where
  owner := howner ▸ h.owner.lock hfree hlock
  used := (congrArg Store.used hstore).trans h.used
  counted := (congrArg Store.counted hstore).trans h.counted
  free j hj := by
    rw [howner] at hj
    rw [hstore]
    by_cases hji : j = i
    · subst hji
      exact h.free j hfree
    · rw [Function.update_of_ne hji] at hj
      exact h.free j hj
  started s := hstarted ▸ h.started s
  stage s := by
    rw [htasks, hstore]
    by_cases hs : s = t
    · subst hs
      simp only [Function.update_self, hpending, hadded]
      refine .inside i c 0 q hq ?_
      rw [hprog, h.free i hfree]
      exact Prog.continues_lock q i _
    · simpa only [Function.update_of_ne hs] using h.stage s

/-- A call that needs no lock happens when it returns. -/
theorem answer (h : Linear prog st m order lockOf pending added) {c : κ} {result : α}
    (hprog : prog c = .done result) (hlock : lockOf t = none) (hpending : pending t = some c)
    (hadded : added t = 0) :
    Linear prog st (m.withTask t (.idle (some result))) (order ++ [(t, c)]) lockOf
      (Function.update pending t none) added := by
  have hserial : serially prog st (order ++ [(t, c)]) =
      ((serially prog st order).1, Function.update (serially prog st order).2 t (some result)) := by
    rw [serially_snoc, hprog]
    rfl
  refine ⟨h.owner, h.used, ?_, ?_, ?_, ?_⟩
  · rw [hserial]
    exact h.counted
  · rw [hserial]
    exact h.free
  · intro s
    show m.started s = _
    rw [callsOf_snoc, h.started s]
    by_cases hs : s = t
    · subst hs
      simp [hpending]
    · simp [hs, Ne.symm hs]
  · intro s
    rw [hserial, Threads.withTask]
    by_cases hs : s = t
    · subst hs
      simp only [Function.update_self, hlock, hadded]
      exact .idle
    · simpa only [Function.update_of_ne hs] using h.stage s

/-- A call with a section happens when it gives back the lock. -/
theorem unlock (h : Linear prog st m order lockOf pending added) {i : ι} {c : κ} {result : α}
    (hpath : Prog.Continues (prog c) (.unlock i (.done result)) i
      ((serially prog st order).1.shards i) (m.shards i) (added t))
    (hst : st.used = 0) (hlock : lockOf t = some i) (hpending : pending t = some c)
    (htasks : m'.tasks = Function.update m.tasks t (.running (.done result)))
    (howner : m'.owner = Function.update m.owner i none) (hstarted : m'.started = m.started)
    (hstore : m'.toStore = m.toStore) :
    Linear prog st m' (order ++ [(t, c)]) (Function.update lockOf t none)
      (Function.update pending t none) (Function.update added t 0) := by
  have hserial : serially prog st (order ++ [(t, c)]) =
      ({ (serially prog st order).1 with
          shards := Function.update (serially prog st order).1.shards i (m.shards i)
          counted := (serially prog st order).1.counted + added t },
        Function.update (serially prog st order).2 t (some result)) := by
    rw [serially_snoc, hpath _ (used_serially hst order) rfl]
    rfl
  refine ⟨howner ▸ h.owner.unlock hlock, (congrArg Store.used hstore).trans h.used, ?_, ?_, ?_, ?_⟩
  · have hsum := Keyed.sum_update_add (Finset.mem_univ t) added 0
    have hbefore := h.counted
    rw [hserial, hstore]
    show m.counted = (serially prog st order).1.counted + added t + _
    omega
  · intro j hj
    rw [howner] at hj
    rw [hserial, hstore]
    show m.shards j = Function.update (serially prog st order).1.shards i (m.shards i) j
    by_cases hji : j = i
    · rw [hji, Function.update_self]
    · rw [Function.update_of_ne hji] at hj ⊢
      exact h.free j hj
  · intro s
    rw [hstarted, callsOf_snoc, h.started s]
    by_cases hs : s = t
    · subst hs
      simp [hpending]
    · simp [hs, Ne.symm hs]
  · intro s
    rw [htasks, hserial, hstore]
    by_cases hs : s = t
    · subst hs
      simp only [Function.update_self]
      exact .returning result rfl
    · simp only [Function.update_of_ne hs]
      -- the other threads have other parts locked
      refine (h.stage s).frame (fun j hj => ?_) fun _ _ => rfl
      have hji : j ≠ i := fun heq => h.owner.other hs hj (heq.symm ▸ hlock)
      exact Function.update_of_ne hji _ _

/-- No call happens. -/
theorem nothing (h : Linear prog st m order lockOf pending added) :
    ∃ more lockOf' pending' added', Linear prog st m (order ++ more) lockOf' pending' added' :=
  ⟨[], lockOf, pending, added, (List.append_nil order).symm ▸ h⟩

/-- A turn in a section. -/
theorem insideTurn (h : Linear prog st m order lockOf pending added) (hst : st.used = 0) {i : ι}
    {c : κ} {q : Prog ι S α} (hq : q.Inside i)
    (hpath : Prog.Continues (prog c) q i ((serially prog st order).1.shards i) (m.shards i) (added t))
    (hlock : lockOf t = some i) (hpending : pending t = some c) :
    ∃ more lockOf' pending' added',
      Linear prog st (m.runTurn 0 t q) (order ++ more) lockOf' pending' added' := by
  cases q with
  | done => exact hq.elim
  | lock => exact hq.elim
  | unlock j next =>
    obtain ⟨rfl, result, rfl⟩ := hq
    exact ⟨[(t, c)], _, _, _, h.unlock hpath hst hlock hpending rfl rfl rfl rfl⟩
  | access j write next =>
    obtain ⟨rfl, hnext⟩ := hq
    refine nothing (h.turn (t := t) (n := 0) rfl rfl rfl rfl rfl (fun i hi => ?_) ?_)
    · have hne : i ≠ j := fun heq => hi (heq.symm ▸ hlock)
      exact Function.update_of_ne hne _ _
    · rw [hlock, hpending]
      refine .inside j c _ _ (hnext _) ?_
      show Prog.Continues _ _ _ _ (Function.update m.shards j (write (m.shards j)) j) _
      rw [Function.update_self]
      exact hpath.access
  | reserve k next =>
    rw [Threads.runTurn, if_pos (.inr rfl)]
    refine nothing (h.withTask ?_)
    rw [hlock, hpending]
    exact .inside i c _ _ (hq true) hpath.reserve
  | release k next =>
    rw [Threads.runTurn, h.used]
    split_ifs <;> refine nothing (h.withTask ?_) <;> rw [hlock, hpending]
    · exact .inside i c _ _ hq hpath.release
    · exact .releasing i c _ k _ hq hpath.release
  | count k next =>
    refine nothing (h.turn (t := t) (n := k) rfl rfl rfl rfl rfl (fun _ _ => rfl) ?_)
    rw [hlock, hpending]
    exact .inside i c _ _ hq hpath.count

/-- A turn of a thread in a program. -/
theorem runTurn (h : Linear prog st m order lockOf pending added) (hst : st.used = 0)
    (hprog : ∀ c, (prog c).OneSection) {p : Prog ι S α} (htask : m.tasks t = .running p) :
    ∃ more lockOf' pending' added',
      Linear prog st (m.runTurn 0 t p) (order ++ more) lockOf' pending' added' := by
  have hstage := h.stage t
  rw [htask] at hstage
  generalize hlock : lockOf t = lk, hpending : pending t = c?, hadded : added t = n at hstage
  cases hstage with
  | returning result hlast =>
    refine nothing (h.withTask ?_)
    rw [hlock, hpending, hadded, ← hlast]
    exact .idle
  | called c =>
    have hone := hprog c
    cases hc : prog c with
    | done result => exact ⟨[(t, c)], lockOf, _, added, h.answer hc hlock hpending hadded⟩
    | lock i q =>
      rw [hc] at hone
      rw [Threads.runTurn]
      split
      · exact h.nothing
      · next hfree =>
        exact nothing (h.lock hc hone hfree hlock hpending hadded rfl rfl rfl rfl)
    | _ =>
      rw [hc] at hone
      exact hone.elim
  | inside i c n q hq hpath => exact h.insideTurn hst hq (hadded ▸ hpath) hlock hpending

/-- In one step at most one call happens, and none that has happened is undone. -/
theorem step (h : Linear prog st m order lockOf pending added) (hst : st.used = 0)
    (hprog : ∀ c, (prog c).OneSection) (e : Event τ κ) :
    ∃ more lockOf' pending' added',
      Linear prog st (m.step 0 prog e) (order ++ more) lockOf' pending' added' := by
  cases e with
  | start t c =>
    rw [Threads.step]
    split
    · next last hidle =>
      have hstage := h.stage t
      rw [hidle] at hstage
      generalize hlock : lockOf t = lk, hpending : pending t = c?, hadded : added t = n at hstage
      cases hstage with
      | idle => exact nothing (h.start c hlock hpending hadded rfl rfl rfl rfl)
    · exact h.nothing
  | turn t spurious =>
    rw [Threads.step]
    split
    · exact h.nothing
    · next htask => exact h.runTurn hst hprog htask
    · next htask =>
      -- without a limit no reservation loops
      have hstage := h.stage t
      rw [htask] at hstage
      generalize lockOf t = lk, pending t = c?, added t = n at hstage
      cases hstage
    · next k current q htask =>
      have hstage := h.stage t
      rw [htask] at hstage
      generalize hlock : lockOf t = lk, hpending : pending t = c?, hadded : added t = n at hstage
      cases hstage with
      | releasing i c n k q hq hpath =>
        rw [Threads.releaseTurn, if_pos rfl]
        refine nothing (h.withTask ?_)
        rw [hlock, hpending, hadded]
        exact .inside i c _ _ hq hpath

end Linear

/-! ## Histories -/

/-- What the calls of `order`, made one after another, have to do with the state of the threads: they
are the calls that the threads have begun, in the order of each thread, except that the last one of a
thread that is not back yet may be missing; a thread that is back has their answer; and when all are
back, the store is theirs. -/
structure Linearizes (prog : κ → Prog ι S α) (st : Store ι S) (m : Threads τ κ ι S α)
    (order : List (τ × κ)) : Prop where
  begun : ∀ t, ∃ missing : Option κ, m.started t = callsOf t order ++ missing.toList
  back : ∀ t last, m.tasks t = .idle last →
    m.started t = callsOf t order ∧ last = (serially prog st order).2 t
  store : m.AtRest → m.toStore = (serially prog st order).1

/-- At rest the state is that of the calls in their order. -/
theorem Linear.linearizes {st : Store ι S} {m : Threads τ κ ι S α} {order : List (τ × κ)}
    {lockOf : τ → Option ι} {pending : τ → Option κ} {added : τ → ℕ}
    (h : Linear prog st m order lockOf pending added) (hst : st.used = 0) :
    Linearizes prog st m order := by
  have hidle : ∀ t last, m.tasks t = .idle last →
      lockOf t = none ∧ pending t = none ∧ added t = 0 ∧ last = (serially prog st order).2 t := by
    intro t last htask
    have hstage := h.stage t
    rw [htask] at hstage
    generalize hlock : lockOf t = lk, hpending : pending t = c?, hadded : added t = n at hstage
    cases hstage
    exact ⟨rfl, rfl, rfl, rfl⟩
  refine ⟨fun t => ⟨pending t, h.started t⟩, fun t last htask => ?_, fun hrest => ?_⟩
  · obtain ⟨-, hpending, -, hlast⟩ := hidle t last htask
    refine ⟨?_, hlast⟩
    rw [h.started t, hpending]
    exact List.append_nil _
  · have hall : ∀ t, lockOf t = none ∧ added t = 0 := by
      intro t
      obtain ⟨last, htask⟩ := hrest t
      obtain ⟨hlock, -, hadded, -⟩ := hidle t last htask
      exact ⟨hlock, hadded⟩
    have hfree : ∀ i, m.owner i = none := by
      intro i
      refine Option.eq_none_iff_forall_ne_some.mpr fun t ht => ?_
      rw [h.owner i t, (hall t).1] at ht
      cases ht
    have hused : m.used = (serially prog st order).1.used :=
      h.used.trans (used_serially hst order).symm
    have hcounted := h.counted
    simp only [(hall _).2, Finset.sum_const_zero, Nat.add_zero] at hcounted
    have hshards : m.shards = (serially prog st order).1.shards := funext fun i => h.free i (hfree i)
    show Store.mk m.used m.counted m.shards = _
    rw [hused, hcounted, hshards]

/-- **Linearizability.** At every instant of every run there is a list of calls that linearizes it, and
it only grows: a call that is back before another begins stands before it. -/
theorem exists_linearization {st : Store ι S} (hst : st.used = 0) (hprog : ∀ c, (prog c).OneSection)
    (events : List (Event τ κ)) :
    ∃ order : ℕ → List (τ × κ), (∀ n, order n <+: order (n + 1)) ∧
      ∀ n, Linearizes prog st (Threads.run 0 prog st (events.take n)) (order n) := by
  have hinit : Linear prog st { toStore := st } [] (fun _ => none) (fun _ => none) fun _ : τ => 0 := by
    refine ⟨?_, hst, ?_, fun _ _ => rfl, fun _ => rfl, fun _ => .idle⟩
    · exact fun _ _ => ⟨fun h => (by cases h), fun h => (by cases h)⟩
    · rw [Finset.sum_const_zero]
      rfl
  have hstep : ∀ (m : Threads τ κ ι S α) (order : List (τ × κ)) (e : Event τ κ),
      (∃ lockOf pending added, Linear prog st m order lockOf pending added) →
      ∃ order', order <+: order' ∧
        ∃ lockOf pending added, Linear prog st (m.step 0 prog e) order' lockOf pending added := by
    rintro m order e ⟨lockOf, pending, added, hlinear⟩
    obtain ⟨more, hmore⟩ := hlinear.step hst hprog e
    exact ⟨order ++ more, List.prefix_append order more, hmore⟩
  obtain ⟨order, hgrows, hall⟩ := Machine.exists_history (R := fun before after => before <+: after)
    (I := fun m order => ∃ lockOf pending added, Linear prog st m order lockOf pending added)
    hstep ⟨_, _, _, hinit⟩ events
  refine ⟨order, hgrows, fun n => ?_⟩
  obtain ⟨lockOf, pending, added, hlinear⟩ := hall n
  exact hlinear.linearizes hst

end Linear

end Reservation
