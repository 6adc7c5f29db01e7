import Mathlib.Data.List.Rotate
import Mathlib.Algebra.BigOperators.Intervals
import Mathlib.Data.List.Perm.Basic

/-!
# Sweeping a list in a circle

A sweep visits some places of a list, from a cursor on and behind the end again from the front, and
takes out what is `bad`. `pass` is one such sweep; a `round` makes a pass over at most `k` places and
moves the cursor on by as many, modulo a length that the pass may have shortened, so that the next
round does not begin where this one ended.

Still every bad element is found. A round that finds none moves the cursor towards the first bad
element of the circle; a round that finds one shortens the list. `work` counts both, and each round
lowers it (`work_round_lt`).
-/

namespace Sweep

variable {α : Type*} (bad : α → Bool)

/-- Behind the last place of the list comes the first one. -/
def wrap (pos size : ℕ) : ℕ := if pos = size then 0 else pos

/-- Visit so many places from `pos` on, and take out what is bad. -/
def pass : ℕ → ℕ → List α → List α
  | 0, _, l => l
  | left + 1, pos, l =>
    match l[pos]? with
    | none => l
    | some x =>
      if bad x then pass left (wrap pos (l.eraseIdx pos).length) (l.eraseIdx pos)
      else pass left (wrap (pos + 1) l.length) l

/-- The elements that a round over `k` places visits. -/
def window (k : ℕ) (s : List α × ℕ) : List α :=
  (s.1.rotate (s.2 % s.1.length)).take (min k s.1.length)

/-- A pass over at most `k` places, and the cursor for the next one. -/
def round (k : ℕ) (s : List α × ℕ) : List α × ℕ :=
  if s.1.length = 0 then (s.1, 0)
  else
    let cursor := s.2 % s.1.length
    let l := pass bad (min k s.1.length) cursor s.1
    (l, if l.length = 0 then 0 else (cursor + min k s.1.length) % l.length)

/-! ## One pass -/

/-- A cursor at the end stands for one at the start. -/
theorem rotate_wrap (l : List α) (pos : ℕ) : l.rotate (wrap pos l.length) = l.rotate pos := by
  rw [wrap]
  split_ifs with h
  · rw [h, List.rotate_length, List.rotate_zero]
  · rfl

/-- Seen from a place, the list begins with the element there; behind it comes the rest of the
circle. -/
theorem rotate_eq_cons {l : List α} {pos : ℕ} {x : α} (h : l[pos]? = some x) :
    l.rotate pos = x :: (l.drop (pos + 1) ++ l.take pos) := by
  obtain ⟨hpos, hx⟩ := List.getElem?_eq_some_iff.mp h
  rw [List.rotate_eq_drop_append_take hpos.le, List.drop_eq_getElem_cons hpos, hx, List.cons_append]

/-- After an erasure the sweep goes on with what came next. -/
theorem rotate_eraseIdx {l : List α} {pos : ℕ} (hpos : pos < l.length) :
    (l.eraseIdx pos).rotate pos = l.drop (pos + 1) ++ l.take pos := by
  have hlen : (l.take pos).length = pos := by
    rw [List.length_take]
    omega
  rw [List.eraseIdx_eq_take_drop_succ, List.rotate_eq_drop_append_take (by simp; omega),
    List.drop_left' hlen, List.take_left' hlen]

/-- After a step the element that was met comes last. -/
theorem rotate_succ {l : List α} {pos : ℕ} {x : α} (h : l[pos]? = some x) :
    l.rotate (pos + 1) = (l.drop (pos + 1) ++ l.take pos) ++ [x] := by
  rw [← List.rotate_rotate, rotate_eq_cons h, List.rotate_cons_succ, List.rotate_zero]

section Pass

variable {bad} {l : List α} {pos left : ℕ}

/-- The places a pass has before it: not more than there are, and the first of them is there. -/
def Fits (left pos : ℕ) (l : List α) : Prop := left ≤ l.length ∧ (0 < left → pos < l.length)

/-- One visit: what stands there, what is left of the circle, and where the pass goes on. -/
theorem Fits.step (h : Fits (left + 1) pos l) :
    ∃ x rest, l[pos]? = some x ∧ l.rotate pos = x :: rest ∧ left ≤ rest.length ∧
      ((l.eraseIdx pos).rotate (wrap pos (l.eraseIdx pos).length) = rest ∧
        Fits left (wrap pos (l.eraseIdx pos).length) (l.eraseIdx pos)) ∧
      (l.rotate (wrap (pos + 1) l.length) = rest ++ [x] ∧ Fits left (wrap (pos + 1) l.length) l) := by
  obtain ⟨hle, hlt⟩ := h
  have hpos := hlt (Nat.succ_pos left)
  have hget : l[pos]? = some l[pos] := List.getElem?_eq_getElem hpos
  have herase : (l.eraseIdx pos).length = l.length - 1 := List.length_eraseIdx_of_lt hpos
  refine ⟨l[pos], _, hget, rotate_eq_cons hget, ?_, ⟨?_, ?_⟩, ?_, ?_⟩
  · simp only [List.length_append, List.length_drop, List.length_take]
    omega
  · rw [rotate_wrap, rotate_eraseIdx hpos]
  · refine ⟨by omega, fun hleft => ?_⟩
    rw [wrap]
    split_ifs <;> omega
  · rw [rotate_wrap, rotate_succ hget]
  · refine ⟨by omega, fun hleft => ?_⟩
    rw [wrap]
    split_ifs <;> omega

/-- What a pass leaves: the places it did not come to, and what was not bad of the others. -/
theorem pass_perm (h : Fits left pos l) :
    (pass bad left pos l).Perm
      ((l.rotate pos).drop left ++ ((l.rotate pos).take left).filter fun x => !bad x) := by
  induction left generalizing pos l with
  | zero => simpa [pass] using (List.rotate_perm l pos).symm
  | succ left ih =>
    obtain ⟨x, rest, hget, hrotate, hle, ⟨heraseR, hefits⟩, hkeepR, hkfits⟩ := h.step
    rw [pass, hget, hrotate, List.take_succ_cons, List.drop_succ_cons]
    simp only
    split_ifs with hbad
    · rw [List.filter_cons_of_neg (by simp [hbad]), ← heraseR]
      exact ih hefits
    · rw [List.filter_cons_of_pos (by simp [hbad])]
      refine (ih hkfits).trans ?_
      rw [hkeepR, List.take_append_of_le_length hle, List.drop_append_of_le_length hle,
        List.append_assoc]
      exact .refl _

/-- A pass that finds nothing bad leaves the list as it is. -/
theorem pass_of_clean (h : Fits left pos l)
    (hclean : ∀ x ∈ (l.rotate pos).take left, bad x = false) : pass bad left pos l = l := by
  induction left generalizing pos with
  | zero => rfl
  | succ left ih =>
    obtain ⟨x, rest, hget, hrotate, hle, -, hkeepR, hkfits⟩ := h.step
    rw [hrotate, List.take_succ_cons] at hclean
    have hx : ¬ bad x = true := by simp [hclean x List.mem_cons_self]
    rw [pass, hget]
    simp only
    rw [if_neg hx]
    refine ih hkfits fun y hy => hclean y ?_
    rw [hkeepR, List.take_append_of_le_length hle] at hy
    exact List.mem_cons_of_mem x hy

/-- A pass takes out the bad elements that it visits and nothing else, and keeps the order. -/
theorem pass_eq_filter [DecidableEq α] (hl : l.Nodup) (h : Fits left pos l) :
    pass bad left pos l
      = l.filter fun y => decide ¬ (y ∈ (l.rotate pos).take left ∧ bad y = true) := by
  induction left generalizing pos l with
  | zero => simp [pass]
  | succ left ih =>
    obtain ⟨x, rest, hget, hrotate, hle, ⟨heraseR, hefits⟩, hkeepR, hkfits⟩ := h.step
    rw [pass, hget, hrotate, List.take_succ_cons]
    simp only
    split_ifs with hbad
    · -- the list without `x` is what the filter leaves of the list around `x`
      obtain ⟨hpos, hx⟩ := List.getElem?_eq_some_iff.mp hget
      have hsplit : l = l.take pos ++ x :: l.drop (pos + 1) := by
        rw [← hx, ← List.drop_eq_getElem_cons hpos, List.take_append_drop]
      have herase : l.eraseIdx pos = l.take pos ++ l.drop (pos + 1) :=
        List.eraseIdx_eq_take_drop_succ l pos
      have hother : ∀ y ∈ l.take pos ++ l.drop (pos + 1), y ≠ x := by
        rw [hsplit] at hl
        have hmid := List.nodup_middle.mp hl
        rintro y hy rfl
        exact (List.nodup_cons.mp hmid).1 hy
      rw [ih (hl.sublist (List.eraseIdx_sublist l pos)) hefits, heraseR, herase]
      conv_rhs => rw [hsplit]
      rw [List.filter_append, List.filter_append, List.filter_cons_of_neg (by simp [hbad]),
        ← List.filter_append, ← List.filter_append]
      refine List.filter_congr fun y hy => ?_
      simp [hother y hy]
    · rw [ih hl hkfits, hkeepR, List.take_append_of_le_length hle]
      refine List.filter_congr fun y _ => ?_
      by_cases hy : y = x
      · subst hy
        simp [hbad]
      · simp [hy]

end Pass

/-! ## One round -/

section Round

variable {bad} {k : ℕ} {s : List α × ℕ}

/-- The window of a round fits into the list. -/
theorem fits_window (hs : s.1.length ≠ 0) : Fits (min k s.1.length) (s.2 % s.1.length) s.1 :=
  ⟨min_le_right _ _, fun _ => Nat.mod_lt _ (Nat.pos_of_ne_zero hs)⟩

/-- A round meets as many elements as it may, or all. -/
theorem length_window : (window k s).length = min k s.1.length := by
  rw [window, List.length_take, List.length_rotate]
  omega

/-- A round meets elements of the list. -/
theorem window_subset : window k s ⊆ s.1 := fun _ hx =>
  List.mem_rotate.mp (List.mem_of_mem_take hx)

/-- A round meets no element twice. -/
theorem window_nodup (hs : s.1.Nodup) : (window k s).Nodup :=
  (List.nodup_rotate.mpr hs).sublist (List.take_sublist _ _)

/-- A round keeps what it does not meet and what is good. -/
theorem round_fst_perm :
    (round bad k s).1.Perm ((s.1.rotate (s.2 % s.1.length)).drop (min k s.1.length) ++
      (window k s).filter fun x => !bad x) := by
  rw [round]
  split_ifs with hs
  · rw [List.length_eq_zero_iff.mp hs]
    simp [window, List.length_eq_zero_iff.mp hs]
  · exact pass_perm (fits_window hs)

/-- A round takes out the bad elements it meets, and leaves the order alone. -/
theorem round_fst_eq_filter [DecidableEq α] (hnodup : s.1.Nodup) :
    (round bad k s).1 = s.1.filter fun y => decide ¬ (y ∈ window k s ∧ bad y = true) := by
  rw [round]
  split_ifs with hs
  · rw [List.length_eq_zero_iff.mp hs]
    rfl
  · exact pass_eq_filter hnodup (fits_window hs)

/-- The cursor stays within the list. -/
theorem round_snd_lt (hne : (round bad k s).1 ≠ []) :
    (round bad k s).2 < (round bad k s).1.length := by
  have hlen := List.length_pos_iff.mpr hne
  rw [round] at hlen ⊢
  split_ifs at hlen ⊢ with hs
  · omega
  · simp only at hlen ⊢
    rw [if_neg (by omega)]
    exact Nat.mod_lt _ hlen

/-- An empty list has its cursor at the start. -/
theorem round_snd_of_nil (hnil : (round bad k s).1 = []) : (round bad k s).2 = 0 := by
  have hlen := List.length_eq_zero_iff.mpr hnil
  rw [round] at hlen ⊢
  split_ifs at hlen ⊢ with hs
  · rfl
  · simp only at hlen ⊢
    rw [if_pos hlen]

variable (bad k s)

/-- What is taken out was bad and is counted. -/
theorem countP_round : (round bad k s).1.countP bad + (window k s).countP bad = s.1.countP bad := by
  have hsplit := (List.rotate_perm s.1 (s.2 % s.1.length)).countP_eq bad
  rw [← List.take_append_drop (min k s.1.length) (s.1.rotate (s.2 % s.1.length)),
    List.countP_append] at hsplit
  have hgood : ((window k s).filter fun x => !bad x).countP bad = 0 := by
    rw [List.countP_eq_zero]
    simp
  rw [round_fst_perm.countP_eq bad, List.countP_append, hgood, ← hsplit, window]
  omega

/-- A round adds nothing. -/
theorem length_round_le : (round bad k s).1.length ≤ s.1.length := by
  rw [round_fst_perm.length_eq, List.length_append, List.length_drop, List.length_rotate]
  have hfilter := List.length_filter_le (fun x => !bad x) (window k s)
  rw [length_window] at hfilter
  omega

end Round

/-! ## Round after round -/

/-- The rounds that may still be needed: one for each bad element but one and each place of the list,
and those that bring the cursor to the first bad element. -/
def work (s : List α × ℕ) : ℕ :=
  if s.1.countP bad = 0 then 0
  else (s.1.countP bad - 1) * s.1.length + (s.1.rotate s.2).findIdx bad + 1

section Work

variable {bad} {k : ℕ} {s : List α × ℕ}

/-- There is no work left exactly if there is no bad element. -/
theorem work_eq_zero : work bad s = 0 ↔ s.1.countP bad = 0 := by
  rw [work]
  split_ifs with hzero
  · exact ⟨fun _ => hzero, fun _ => rfl⟩
  · exact ⟨nofun, fun h => absurd h hzero⟩

variable (bad s) in
/-- The work is bounded by the bad elements and the length. -/
theorem work_le : work bad s ≤ s.1.countP bad * s.1.length := by
  rw [work]
  split_ifs with hzero
  · omega
  · have hfind : (s.1.rotate s.2).findIdx bad < s.1.length := by
      rw [← List.length_rotate s.1 s.2, List.findIdx_lt_length]
      obtain ⟨x, hx, hbad⟩ := List.countP_pos_iff.mp (Nat.pos_of_ne_zero hzero)
      exact ⟨x, List.mem_rotate.mpr hx, hbad⟩
    obtain ⟨c, hc⟩ := Nat.exists_eq_succ_of_ne_zero hzero
    rw [hc, Nat.succ_sub_one, Nat.succ_mul]
    omega

/-- A round that finds nothing leaves the list, and moves on by the places it has visited. -/
theorem round_of_clean (hs : s.1.length ≠ 0) (hclean : (window k s).countP bad = 0) :
    round bad k s = (s.1, (s.2 % s.1.length + min k s.1.length) % s.1.length) := by
  have hpass : pass bad (min k s.1.length) (s.2 % s.1.length) s.1 = s.1 := by
    apply pass_of_clean (fits_window hs)
    intro x hx
    have hnot := List.countP_eq_zero.mp hclean x hx
    simpa using hnot
  rw [round, if_neg hs]
  simp only [hpass]
  rw [if_neg hs]

/-- Such a round brings the first bad element of the circle nearer, by as many places. -/
theorem findIdx_of_clean (hclean : (window k s).countP bad = 0) (hbad : s.1.countP bad ≠ 0) :
    (s.1.rotate (s.2 % s.1.length + min k s.1.length)).findIdx bad + min k s.1.length
      = (s.1.rotate s.2).findIdx bad := by
  have hlen : (window k s).length = min k s.1.length := length_window
  have hsplit : s.1.rotate (s.2 % s.1.length)
      = window k s ++ (s.1.rotate (s.2 % s.1.length)).drop (min k s.1.length) :=
    (List.take_append_drop _ _).symm
  have hmissing : ¬ (window k s).findIdx bad < (window k s).length := by
    rw [List.findIdx_lt_length]
    rintro ⟨x, hx, hb⟩
    exact List.countP_eq_zero.mp hclean x hx hb
  -- the bad element is behind the window
  have hbehind : ((s.1.rotate (s.2 % s.1.length)).drop (min k s.1.length)).findIdx bad
      < ((s.1.rotate (s.2 % s.1.length)).drop (min k s.1.length)).length := by
    rw [List.findIdx_lt_length]
    have hcount := (List.rotate_perm s.1 (s.2 % s.1.length)).countP_eq bad
    rw [hsplit, List.countP_append, hclean] at hcount
    exact List.countP_pos_iff.mp (by omega)
  rw [← List.rotate_rotate, List.rotate_eq_drop_append_take (by simp), List.findIdx_append,
    if_pos hbehind, ← List.rotate_mod s.1 s.2]
  conv_rhs => rw [hsplit, List.findIdx_append, if_neg hmissing, hlen]

/-- **Each round lowers the work.** -/
theorem work_round_lt (hk : 1 ≤ k) (hwork : work bad s ≠ 0) :
    work bad (round bad k s) < work bad s := by
  have hbad : s.1.countP bad ≠ 0 := mt work_eq_zero.mpr hwork
  have hs : s.1.length ≠ 0 := by
    intro hzero
    have hle := List.countP_le_length (p := bad) (l := s.1)
    omega
  by_cases hclean : (window k s).countP bad = 0
  · have hnear := findIdx_of_clean hclean hbad
    rw [round_of_clean hs hclean, work, work, if_neg hbad, if_neg hbad]
    simp only [List.rotate_mod]
    omega
  · -- one bad element fewer, and a list that is not longer
    have hcount := countP_round bad k s
    have hlength := length_round_le bad k s
    have hfewer : (round bad k s).1.countP bad ≤ s.1.countP bad - 1 := by omega
    calc work bad (round bad k s)
        ≤ (round bad k s).1.countP bad * (round bad k s).1.length := work_le bad _
      _ ≤ (s.1.countP bad - 1) * s.1.length := Nat.mul_le_mul hfewer hlength
      _ < work bad s := by
          rw [work, if_neg hbad]
          omega

variable (bad s) in
/-- Every round does some of the work. -/
theorem work_iterate_le (hk : 1 ≤ k) (n : ℕ) :
    work bad ((round bad k)^[n] s) ≤ work bad s - n := by
  induction n with
  | zero => exact le_rfl
  | succ n ih =>
    rw [Function.iterate_succ_apply']
    by_cases hzero : work bad ((round bad k)^[n] s) = 0
    · have hcount := countP_round bad k ((round bad k)^[n] s)
      rw [work_eq_zero.mp hzero] at hcount
      have hstay : work bad (round bad k ((round bad k)^[n] s)) = 0 :=
        work_eq_zero.mpr (by omega)
      omega
    · have hlt := work_round_lt hk hzero
      omega

/-- After as many rounds as there are bad elements and places, nothing bad is left. -/
theorem countP_iterate (hk : 1 ≤ k) {n : ℕ} (hn : s.1.countP bad * s.1.length ≤ n) :
    ((round bad k)^[n] s).1.countP bad = 0 := by
  have hwork := work_iterate_le bad s hk n
  have hle := work_le bad s
  by_contra hne
  rw [work, if_neg hne] at hwork
  omega

variable (bad k s) in
/-- What the rounds have taken out, and what is left of the bad elements. -/
theorem sum_countP_window (n : ℕ) :
    ∑ j ∈ Finset.range n, (window k ((round bad k)^[j] s)).countP bad
      + ((round bad k)^[n] s).1.countP bad = s.1.countP bad := by
  induction n with
  | zero => simp
  | succ n ih =>
    rw [Finset.sum_range_succ, Function.iterate_succ_apply', ← ih,
      ← countP_round bad k ((round bad k)^[n] s)]
    omega

end Work

end Sweep
