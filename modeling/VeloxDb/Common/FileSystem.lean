import Mathlib.Logic.Function.Basic
import VeloxDb.Common.Decimal

/-!
# A file system with names, inodes and descriptors

Names point at inodes and an open descriptor is an inode number, so a descriptor keeps writing to
its file after the name has been renamed over or removed. The invariant that no two names share an
inode is part of the structure.

All reasoning goes through `read`, the contents a name has: each operation comes with one lemma for
the name it changes and one for every other name. `Keeps` is the frame condition: which names an
operation may have changed.
-/

/-- `dir` gives the inode of a name, `data` the contents of an inode, `next` the first unused one.
-/
structure FileSystem (ν : Type) where
  dir : ν → Option ℕ
  data : ℕ → Bytes
  next : ℕ
  dir_lt : ∀ n i, dir n = some i → i < next
  dir_inj : ∀ m n i, dir m = some i → dir n = some i → m = n

namespace FileSystem

variable {ν : Type}

/-- No files at all. -/
def empty : FileSystem ν where
  dir := fun _ => none
  data := fun _ => []
  next := 0
  dir_lt := by simp
  dir_inj := by simp

/-- The contents of a file, if there is one of that name. -/
def read (fs : FileSystem ν) (n : ν) : Option Bytes := (fs.dir n).map fs.data

/-- An empty file system has no file. -/
@[simp] theorem read_empty (n : ν) : (empty : FileSystem ν).read n = none := rfl

/-- There is a file of that name. -/
def has (fs : FileSystem ν) (n : ν) : Bool := (fs.read n).isSome

/-- Replace the contents of an inode. -/
def store (fs : FileSystem ν) (i : ℕ) (bytes : Bytes) : FileSystem ν :=
  { fs with data := Function.update fs.data i bytes }

/-- Append through a descriptor. -/
def append (fs : FileSystem ν) (fd : ℕ) (bytes : Bytes) : FileSystem ν :=
  fs.store fd (fs.data fd ++ bytes)

/-! ## Writing to an inode -/

section Inodes

variable (fs : FileSystem ν) {m n : ν} {fd : ℕ} {bytes : Bytes}

/-- Writing to a file leaves the directory alone. -/
@[simp] theorem dir_store (i : ℕ) : (fs.store i bytes).dir = fs.dir := rfl

/-- Appending to a file leaves the directory alone. -/
@[simp] theorem dir_append : (fs.append fd bytes).dir = fs.dir := rfl

/-- Appending nothing does nothing. -/
@[simp] theorem append_nil : fs.append fd [] = fs := by
  simp [append, store]

/-- Two appends through one descriptor are one. -/
@[simp] theorem append_append (a b : Bytes) :
    (fs.append fd a).append fd b = fs.append fd (a ++ b) := by
  simp [append, store, List.append_assoc]

/-- Storing through the inode of `n` gives `n` the new contents. -/
theorem read_store_self {i : ℕ} (h : fs.dir n = some i) : (fs.store i bytes).read n = some bytes := by
  simp [read, store, h]

/-- Writing to one file leaves the others alone. -/
theorem read_store_of_ne {i : ℕ} (h : fs.dir n = some i) (hmn : m ≠ n) :
    (fs.store i bytes).read m = fs.read m := by
  simp only [read, store]
  cases hm : fs.dir m with
  | none => rfl
  | some j =>
    have hji : j ≠ i := fun hji => hmn (fs.dir_inj m n i (hji ▸ hm) h)
    simp [Function.update_of_ne hji]

/-- What is appended is read back behind what there was. -/
theorem read_append_self (h : fs.dir n = some fd) {old : Bytes} (hold : fs.read n = some old) :
    (fs.append fd bytes).read n = some (old ++ bytes) := by
  have hdata : fs.data fd = old := by simpa [read, h] using hold
  rw [append, read_store_self fs h, hdata]

/-- Appending to one file leaves the others alone. -/
theorem read_append_of_ne (h : fs.dir n = some fd) (hmn : m ≠ n) :
    (fs.append fd bytes).read m = fs.read m :=
  read_store_of_ne fs h hmn

end Inodes

/-! ## Frames -/

/-- All names but those in `changed` still have their file, with its contents. -/
def Keeps (changed : List ν) (fs fs' : FileSystem ν) : Prop :=
  ∀ n, n ∉ changed → fs'.dir n = fs.dir n ∧ fs'.read n = fs.read n

namespace Keeps

variable {fs fs' fs'' : FileSystem ν} {n : ν} {changed more : List ν}

/-- Nothing is changed. -/
theorem refl (changed : List ν) (fs : FileSystem ν) : Keeps changed fs fs := fun _ _ => ⟨rfl, rfl⟩

/-- More files may change. -/
theorem mono (h : Keeps changed fs fs') (hsub : ∀ n ∈ changed, n ∈ more) : Keeps more fs fs' :=
  fun n hn => h n fun hc => hn (hsub n hc)

/-- One change after the other. -/
theorem trans (h : Keeps changed fs fs') (h' : Keeps changed fs' fs'') : Keeps changed fs fs'' :=
  fun n hn => ⟨(h' n hn).1.trans (h n hn).1, (h' n hn).2.trans (h n hn).2⟩

/-- A file that is kept reads as before. -/
theorem read (h : Keeps changed fs fs') (hn : n ∉ changed) : fs'.read n = fs.read n := (h n hn).2

/-- A file that is kept is the same file. -/
theorem dir (h : Keeps changed fs fs') (hn : n ∉ changed) : fs'.dir n = fs.dir n := (h n hn).1

/-- Appending changes one file. -/
theorem append {fd : ℕ} (hdir : fs.dir n = some fd) (bytes : Bytes) :
    Keeps [n] fs (fs.append fd bytes) := fun m hm =>
  ⟨rfl, fs.read_append_of_ne hdir (by simpa using hm)⟩

end Keeps

/-! ## Changing the directory -/

variable [DecidableEq ν]

/-- `open` with `O_CREAT`: the inode of the name, created empty where there is none. -/
def create (fs : FileSystem ν) (n : ν) : FileSystem ν × ℕ :=
  match h : fs.dir n with
  | some i => (fs, i)
  | none =>
    ({ dir := Function.update fs.dir n (some fs.next)
       data := Function.update fs.data fs.next []
       next := fs.next + 1
       dir_lt := by
        intro m i hm
        by_cases hmn : m = n
        · subst hmn
          simp only [Function.update_self, Option.some.injEq] at hm
          omega
        · rw [Function.update_of_ne hmn] at hm
          exact (fs.dir_lt m i hm).trans (Nat.lt_succ_self _)
       dir_inj := by
        intro a b i ha hb
        by_cases han : a = n <;> by_cases hbn : b = n
        · rw [han, hbn]
        · subst han
          rw [Function.update_self, Option.some.injEq] at ha
          rw [Function.update_of_ne hbn] at hb
          have hlt := fs.dir_lt b i hb
          omega
        · subst hbn
          rw [Function.update_self, Option.some.injEq] at hb
          rw [Function.update_of_ne han] at ha
          have hlt := fs.dir_lt a i ha
          omega
        · rw [Function.update_of_ne han] at ha
          rw [Function.update_of_ne hbn] at hb
          exact fs.dir_inj a b i ha hb }, fs.next)

/-- `open` with `O_CREAT | O_TRUNC`. -/
def openTruncate (fs : FileSystem ν) (n : ν) : FileSystem ν × ℕ :=
  ((fs.create n).1.store (fs.create n).2 [], (fs.create n).2)

/-- `open` with `O_CREAT | O_APPEND`. -/
def openAppend (fs : FileSystem ν) (n : ν) : FileSystem ν × ℕ := fs.create n

/-- `unlink`: the name is gone, the bytes are left to those that hold the file open. -/
def remove (fs : FileSystem ν) (n : ν) : FileSystem ν :=
  { fs with
    dir := Function.update fs.dir n none
    dir_lt := by
      intro m i hm
      by_cases hmn : m = n
      · subst hmn
        simp at hm
      · rw [Function.update_of_ne hmn] at hm
        exact fs.dir_lt m i hm
    dir_inj := by
      intro a b i ha hb
      by_cases han : a = n
      · subst han
        simp at ha
      · by_cases hbn : b = n
        · subst hbn
          simp at hb
        · rw [Function.update_of_ne han] at ha
          rw [Function.update_of_ne hbn] at hb
          exact fs.dir_inj a b i ha hb }

/-- `rename`: `dst` becomes the file that `src` was; a missing `src` changes nothing. -/
def rename (fs : FileSystem ν) (src dst : ν) : FileSystem ν :=
  match h : fs.dir src with
  | none => fs
  | some i =>
    { fs with
      dir := Function.update (Function.update fs.dir src none) dst (some i)
      dir_lt := by
        intro m j hm
        by_cases hmt : m = dst
        · subst hmt
          rw [Function.update_self, Option.some.injEq] at hm
          exact hm ▸ fs.dir_lt src i h
        · rw [Function.update_of_ne hmt] at hm
          exact (fs.remove src).dir_lt m j hm
      dir_inj := by
        have hfree : ∀ m, Function.update fs.dir src none m ≠ some i := by
          intro m hm
          by_cases hms : m = src
          · subst hms
            simp at hm
          · rw [Function.update_of_ne hms] at hm
            exact hms (fs.dir_inj m src i hm h)
        intro a b j ha hb
        by_cases hat : a = dst <;> by_cases hbt : b = dst
        · rw [hat, hbt]
        · subst hat
          rw [Function.update_self, Option.some.injEq] at ha
          rw [Function.update_of_ne hbt] at hb
          exact absurd (ha ▸ hb) (hfree b)
        · subst hbt
          rw [Function.update_self, Option.some.injEq] at hb
          rw [Function.update_of_ne hat] at ha
          exact absurd (hb ▸ ha) (hfree a)
        · rw [Function.update_of_ne hat] at ha
          rw [Function.update_of_ne hbt] at hb
          exact (fs.remove src).dir_inj a b j ha hb }

/-! ## What a name has after an operation -/

variable (fs : FileSystem ν) {m n : ν}

/-- A file that is created is there. -/
theorem dir_create_self (n : ν) : (fs.create n).1.dir n = some (fs.create n).2 := by
  rw [create]
  split
  · assumption
  · simp

/-- Creating a file leaves the others in the directory. -/
theorem dir_create_of_ne (h : m ≠ n) : (fs.create n).1.dir m = fs.dir m := by
  rw [create]
  split
  · rfl
  · simp [Function.update_of_ne h]

/-- A file that is there is not created. -/
theorem create_of_dir {i : ℕ} (h : fs.dir n = some i) : fs.create n = (fs, i) := by
  rw [create]
  split
  · next j hj =>
    rw [h, Option.some.injEq] at hj
    rw [hj]
  · next hn => simp [h] at hn

/-- Opening a missing file with `O_CREAT` gives it no contents, an existing one keeps its own. -/
theorem read_create_self (n : ν) : (fs.create n).1.read n = some ((fs.read n).getD []) := by
  cases hn : fs.dir n with
  | some i => simp [create_of_dir fs hn, read, hn]
  | none =>
    rw [create]
    split
    · next j hj => simp [hn] at hj
    · simp [read, hn]

/-- Creating a file leaves the others' bytes alone. -/
theorem read_create_of_ne (hmn : m ≠ n) : (fs.create n).1.read m = fs.read m := by
  rw [create]
  split
  · rfl
  · simp only [read, Function.update_of_ne hmn]
    cases hm : fs.dir m with
    | none => rfl
    | some j =>
      have hj : j ≠ fs.next := Nat.ne_of_lt (fs.dir_lt m j hm)
      simp [Function.update_of_ne hj]

/-- A file that is opened and cut is there. -/
theorem dir_openTruncate_self (n : ν) :
    (fs.openTruncate n).1.dir n = some (fs.openTruncate n).2 :=
  fs.dir_create_self n

/-- Cutting a file leaves the others in the directory. -/
theorem dir_openTruncate_of_ne (hmn : m ≠ n) : (fs.openTruncate n).1.dir m = fs.dir m :=
  fs.dir_create_of_ne hmn

/-- A file that is opened and cut is empty. -/
@[simp] theorem read_openTruncate_self (n : ν) : (fs.openTruncate n).1.read n = some [] :=
  read_store_self _ (fs.dir_create_self n)

/-- Cutting a file leaves the others' bytes alone. -/
theorem read_openTruncate_of_ne (hmn : m ≠ n) : (fs.openTruncate n).1.read m = fs.read m := by
  rw [openTruncate, read_store_of_ne _ (fs.dir_create_self n) hmn, fs.read_create_of_ne hmn]

/-- A file that is removed is gone. -/
@[simp] theorem read_remove_self (n : ν) : (fs.remove n).read n = none := by
  simp [read, remove]

/-- Removing a file leaves the others in the directory. -/
theorem dir_remove_of_ne (hmn : m ≠ n) : (fs.remove n).dir m = fs.dir m := by
  simp [remove, Function.update_of_ne hmn]

/-- Removing a file leaves the others' bytes alone. -/
theorem read_remove_of_ne (hmn : m ≠ n) : (fs.remove n).read m = fs.read m := by
  rw [read, dir_remove_of_ne fs hmn]
  rfl

/-- Under the new name is the file itself. -/
theorem dir_rename_dst {src dst : ν} {i : ℕ} (h : fs.dir src = some i) :
    (fs.rename src dst).dir dst = some i := by
  rw [rename]
  split
  · next hn => simp [h] at hn
  · next j hj =>
    rw [h] at hj
    simpa using hj.symm

/-- Under the old name is nothing. -/
theorem dir_rename_src {src dst : ν} (hne : src ≠ dst) : (fs.rename src dst).dir src = none := by
  rw [rename]
  split
  · assumption
  · simp [Function.update_of_ne hne]

/-- The other names stay. -/
theorem dir_rename_of_ne {src dst : ν} (hs : m ≠ src) (ht : m ≠ dst) :
    (fs.rename src dst).dir m = fs.dir m := by
  rw [rename]
  split
  · rfl
  · simp [Function.update_of_ne hs, Function.update_of_ne ht]

/-- A rename moves no bytes. -/
private theorem data_rename (src dst : ν) : (fs.rename src dst).data = fs.data := by
  rw [rename]
  split <;> rfl

/-- Under the new name are the bytes of the old one. -/
theorem read_rename_dst {src dst : ν} {old : Bytes} (h : fs.read src = some old) :
    (fs.rename src dst).read dst = some old := by
  rw [read, Option.map_eq_some_iff] at h
  obtain ⟨i, hi, hdata⟩ := h
  rw [read, dir_rename_dst fs hi, data_rename, Option.map_some, hdata]

/-- Under the other names are the bytes there were. -/
theorem read_rename_of_ne {src dst : ν} (hs : m ≠ src) (ht : m ≠ dst) :
    (fs.rename src dst).read m = fs.read m := by
  rw [read, dir_rename_of_ne fs hs ht, data_rename]
  rfl

namespace Keeps

/-- Opening for appending changes one file. -/
theorem openAppend (fs : FileSystem ν) (n : ν) : Keeps [n] fs (fs.openAppend n).1 := fun m hm =>
  ⟨fs.dir_create_of_ne (by simpa using hm), fs.read_create_of_ne (by simpa using hm)⟩

/-- Opening and cutting changes one file. -/
theorem openTruncate (fs : FileSystem ν) (n : ν) : Keeps [n] fs (fs.openTruncate n).1 := fun m hm =>
  ⟨fs.dir_openTruncate_of_ne (by simpa using hm), fs.read_openTruncate_of_ne (by simpa using hm)⟩

theorem remove (fs : FileSystem ν) (n : ν) : Keeps [n] fs (fs.remove n) := fun m hm =>
  ⟨fs.dir_remove_of_ne (by simpa using hm), fs.read_remove_of_ne (by simpa using hm)⟩

/-- A rename changes two files. -/
theorem rename (fs : FileSystem ν) (src dst : ν) : Keeps [src, dst] fs (fs.rename src dst) := by
  intro m hm
  simp only [List.mem_cons, List.not_mem_nil, or_false, not_or] at hm
  exact ⟨fs.dir_rename_of_ne hm.1 hm.2, fs.read_rename_of_ne hm.1 hm.2⟩

end Keeps

/-! ## Files without a name -/

/-- No name points at the inode; a descriptor may. -/
def Orphan (fs : FileSystem ν) (i : ℕ) : Prop := ∀ n, fs.dir n ≠ some i

namespace Orphan

variable {fs} {i : ℕ}

omit [DecidableEq ν] in
/-- What is written to such a file is not found under any name. -/
theorem read_append (h : fs.Orphan i) (bytes : Bytes) (n : ν) :
    (fs.append i bytes).read n = fs.read n := by
  simp only [read, dir_append]
  cases hn : fs.dir n with
  | none => rfl
  | some j =>
    have hji : j ≠ i := fun hji => h n (hji ▸ hn)
    simp [append, store, Function.update_of_ne hji]

theorem remove (h : fs.Orphan i) (n : ν) : (fs.remove n).Orphan i := by
  intro m hm
  by_cases hmn : m = n
  · subst hmn
    simp [FileSystem.remove] at hm
  · rw [dir_remove_of_ne fs hmn] at hm
    exact h m hm

/-- The file that was renamed over. -/
theorem of_rename {src dst : ν} {j : ℕ} (hsrc : fs.dir src = some j) (hdst : fs.dir dst = some i)
    (hne : src ≠ dst) : (fs.rename src dst).Orphan i := by
  have hij : j ≠ i := fun hji => hne (fs.dir_inj src dst i (hji ▸ hsrc) hdst)
  intro m hm
  by_cases hmd : m = dst
  · subst hmd
    rw [dir_rename_dst fs hsrc, Option.some.injEq] at hm
    exact hij hm
  · by_cases hms : m = src
    · subst hms
      rw [dir_rename_src fs hmd] at hm
      cases hm
    · rw [dir_rename_of_ne fs hms hmd] at hm
      exact hmd (fs.dir_inj m dst i hm hdst)

end Orphan

end FileSystem
