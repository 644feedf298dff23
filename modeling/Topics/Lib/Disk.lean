import Mathlib.Data.List.AList

/-!
# A directory and its files

Files and their names have separate durability: the bytes of a file are durable once the file has
been synced, a change of the directory (a new name, a rename, an unlink) once the directory has been.
-/

namespace Topics.Lib

open Function

universe u v

/-- The entries of a directory: names and file numbers. -/
abbrev Entries (N : Type u) := AList fun _ : N => Nat

/-- One atomic change: the entries it sets and removes, in order. -/
abbrev DirChange (N : Type u) := List (N × Option Nat)

section Directory

variable {N : Type u} [DecidableEq N]

namespace Entries

def assign (es : Entries N) (p : N × Option Nat) : Entries N :=
  match p.2 with
  | some i => es.insert p.1 i
  | none => es.erase p.1

def apply (es : Entries N) (c : DirChange N) : Entries N := c.foldl assign es

theorem lookup_assign_self (es : Entries N) (n : N) (v : Option Nat) :
    (es.assign (n, v)).lookup n = v := by
  cases v with
  | none => exact AList.lookup_erase n es
  | some i => exact AList.lookup_insert es

theorem lookup_assign_of_ne {es : Entries N} {n : N} {p : N × Option Nat} (h : n ≠ p.1) :
    (es.assign p).lookup n = es.lookup n := by
  obtain ⟨m, v⟩ := p
  cases v with
  | none => exact AList.lookup_erase_ne h
  | some i => exact AList.lookup_insert_ne h

/-- The two lemmas as one equation. -/
theorem lookup_assign (es : Entries N) (p : N × Option Nat) (n : N) :
    (es.assign p).lookup n = if n = p.1 then p.2 else es.lookup n := by
  split
  · rename_i hn
    rw [hn]
    exact lookup_assign_self es p.1 p.2
  · rename_i hn
    exact lookup_assign_of_ne hn

@[simp] theorem apply_nil (es : Entries N) : es.apply [] = es := rfl

@[simp] theorem apply_cons (es : Entries N) (p : N × Option Nat) (c : DirChange N) :
    es.apply (p :: c) = (es.assign p).apply c := rfl

end Entries

/-- A directory: what is durable, and the changes that are not yet. -/
structure Directory (N : Type u) where
  durable : Entries N
  log : List (DirChange N)

namespace Directory

def empty : Directory N := ⟨∅, []⟩

/-- What a running program sees. -/
def live (d : Directory N) : Entries N := d.log.foldl Entries.apply d.durable

def change (d : Directory N) (c : DirChange N) : Directory N := { d with log := d.log ++ [c] }

def sync (d : Directory N) : Directory N := ⟨d.live, []⟩

@[simp] theorem live_change (d : Directory N) (c : DirChange N) :
    (d.change c).live = d.live.apply c := by
  simp [live, change, List.foldl_append]

end Directory

end Directory

/-! ## Files -/

/-- A file: what a reader sees, and whether all of it has reached the disk. -/
structure Inode (B : Type v) where
  bytes : List B
  synced : Bool

/-- A directory and its files.  Files are numbered as they are created. -/
structure Disk (N : Type u) (B : Type v) where
  dir : Directory N
  file : Nat → Inode B
  next : Nat

namespace Disk

variable {N : Type u} [DecidableEq N] {B : Type v}

def empty : Disk N B := ⟨.empty, fun _ => ⟨[], false⟩, 0⟩

def lookup (d : Disk N B) (n : N) : Option Nat := d.dir.live.lookup n

def read (d : Disk N B) (n : N) : Option (List B) := (d.lookup n).map fun i => (d.file i).bytes

def setFile (d : Disk N B) (i : Nat) (f : Inode B) : Disk N B :=
  { d with file := update d.file i f }

/-- Open for writing: an existing file is truncated, a missing one created.  Returns its number. -/
def create (d : Disk N B) (n : N) : Disk N B × Nat :=
  match d.lookup n with
  | some i => (d.setFile i ⟨[], false⟩, i)
  | none =>
    ({ dir := d.dir.change [(n, some d.next)]
       file := update d.file d.next ⟨[], false⟩
       next := d.next + 1 }, d.next)

/-- Append to file `i`. -/
def append (d : Disk N B) (i : Nat) (bs : List B) : Disk N B :=
  d.setFile i ⟨(d.file i).bytes ++ bs, false⟩

def fsync (d : Disk N B) (i : Nat) : Disk N B := d.setFile i { d.file i with synced := true }

/-- Rename: both entries change at once. -/
def rename (d : Disk N B) (a b : N) : Disk N B :=
  match d.lookup a with
  | some i => { d with dir := d.dir.change [(b, some i), (a, none)] }
  | none => d

def unlink (d : Disk N B) (n : N) : Disk N B := { d with dir := d.dir.change [(n, none)] }

def syncDir (d : Disk N B) : Disk N B := { d with dir := d.dir.sync }

variable {d : Disk N B} {n : N} {i : Nat}

/-! ### What the operations do to the names -/

theorem lookup_unlink (d : Disk N B) (m n : N) :
    (d.unlink m).lookup n = if n = m then none else d.lookup n := by
  simp only [lookup, unlink, Directory.live_change, Entries.apply_cons, Entries.apply_nil,
    Entries.lookup_assign]

theorem lookup_rename {a b : N} (hi : d.lookup a = some i) (n : N) :
    (d.rename a b).lookup n = if n = a then none else if n = b then some i else d.lookup n := by
  rw [rename, hi]
  simp only [lookup, Directory.live_change, Entries.apply_cons, Entries.apply_nil,
    Entries.lookup_assign]

/-- A name without a file gets a new one. -/
theorem create_of_lookup_none (hn : d.lookup n = none) :
    d.create n = ({ dir := d.dir.change [(n, some d.next)]
                    file := update d.file d.next ⟨[], false⟩
                    next := d.next + 1 }, d.next) := by
  unfold create
  rw [hn]

theorem create_of_lookup_some (hn : d.lookup n = some i) :
    d.create n = (d.setFile i ⟨[], false⟩, i) := by
  unfold create
  rw [hn]

/-- An opened file is empty, and has its name. -/
theorem lookup_create (d : Disk N B) (m n : N) :
    (d.create m).1.lookup n = if n = m then some (d.create m).2 else d.lookup n := by
  cases hm : d.lookup m with
  | some i =>
    rw [create_of_lookup_some hm]
    split
    · rename_i hn
      rw [hn]
      exact hm
    · rfl
  | none =>
    rw [create_of_lookup_none hm]
    simp only [lookup, Directory.live_change, Entries.apply_cons, Entries.apply_nil,
      Entries.lookup_assign]

theorem bytes_create (d : Disk N B) (m : N) : ((d.create m).1.file (d.create m).2).bytes = [] := by
  cases hm : d.lookup m with
  | some i =>
    rw [create_of_lookup_some hm]
    simp only [setFile, update_self]
  | none =>
    rw [create_of_lookup_none hm]
    simp only [update_self]

theorem file_rename (d : Disk N B) (a b : N) :
    (d.rename a b).file = d.file ∧ (d.rename a b).next = d.next := by
  unfold Disk.rename
  split <;> exact ⟨rfl, rfl⟩

end Disk

end Topics.Lib
