import Mathlib.Data.Nat.Basic
import Mathlib.Tactic.Ring

/-!
# Byte strings and readers over them

Little-endian numbers of a fixed width, and readers that take a value off the front of a byte
string.  `Reads p a bs` says that `p` reads `a` from `bs`, whatever follows; it composes along
the reader's own structure, so that a round trip is proved field by field.
-/

namespace Topics.Lib

open List

/-! ## Little-endian numbers -/

/-- The lowest `w` bytes of `n`, lowest first. -/
def leBytes : Nat → Nat → List UInt8
  | 0, _ => []
  | w + 1, n => UInt8.ofNat n :: leBytes w (n / 256)

/-- The number whose bytes, lowest first, are given. -/
def leNat : List UInt8 → Nat
  | [] => 0
  | b :: bs => b.toNat + 256 * leNat bs

@[simp] theorem length_leBytes (w n : Nat) : (leBytes w n).length = w := by
  induction w generalizing n with
  | zero => rfl
  | succ w ih => rw [leBytes, length_cons, ih]

/-- Reading back keeps what fits into the width. -/
theorem leNat_leBytes_mod (w n : Nat) : leNat (leBytes w n) = n % 256 ^ w := by
  induction w generalizing n with
  | zero => simp [leBytes, leNat, Nat.mod_one]
  | succ w ih =>
    rw [leBytes, leNat, ih, pow_succ', Nat.mod_mul]
    simp only [UInt8.toNat_ofNat']

theorem leNat_leBytes {w n : Nat} (h : n < 256 ^ w) : leNat (leBytes w n) = n := by
  rw [leNat_leBytes_mod, Nat.mod_eq_of_lt h]

theorem leNat_replicate_zero (w : Nat) : leNat (List.replicate w 0) = 0 := by
  induction w with
  | zero => rfl
  | succ w ih => rw [replicate_succ, leNat, ih]; rfl

/-! ## Readers -/

/-- A reader takes a value off the front of a byte string, or fails. -/
abbrev Reader (α : Type) := StateT (List UInt8) Option α

namespace Reader

variable {α β : Type}

/-- A reader reads `a` from `bs`, whatever follows. -/
def Reads (p : Reader α) (a : α) (bs : List UInt8) : Prop :=
  ∀ rest, p.run (bs ++ rest) = some (a, rest)

/-- Take `n` bytes. -/
def take (n : Nat) : Reader (List UInt8) := fun buf =>
  if buf.length < n then none else some (buf.take n, buf.drop n)

/-- A little-endian number of `w` bytes. -/
def le (w : Nat) : Reader Nat := do
  return leNat (← take w)

/-- `n` values, one after the other. -/
def many (p : Reader α) : Nat → Reader (List α)
  | 0 => return []
  | n + 1 => do
    let a ← p
    let as ← many p n
    return a :: as

/-- Lift a partial value. -/
def ofOption (o : Option α) : Reader α := fun buf => o.map fun a => (a, buf)

/-- The value of a reader on a whole buffer, whatever it leaves. -/
def parse (p : Reader α) (buf : List UInt8) : Option α := (p.run buf).map Prod.fst

/-- The value of a reader that must use a whole buffer. -/
def parseAll (p : Reader α) (buf : List UInt8) : Option α :=
  (p.run buf).bind fun r => if r.2.isEmpty then some r.1 else none

theorem reads_pure (a : α) : Reads (pure a) a [] := fun _ => rfl

theorem Reads.bind {p : Reader α} {q : α → Reader β} {a : α} {b : β} {bs cs : List UInt8}
    (hp : Reads p a bs) (hq : Reads (q a) b cs) : Reads (p >>= q) b (bs ++ cs) := by
  intro rest
  rw [StateT.run_bind, append_assoc, hp]
  exact hq rest

/-- The last field of a reader that only renames it. -/
theorem Reads.map {p : Reader α} {f : α → β} {a : α} {bs : List UInt8} (hp : Reads p a bs) :
    Reads (p >>= fun a => pure (f a)) (f a) bs := by
  have h := hp.bind (q := fun a => pure (f a)) (reads_pure (f a))
  rwa [append_nil] at h

theorem reads_take (bs : List UInt8) : Reads (take bs.length) bs bs := by
  intro rest
  simp [take, StateT.run]

theorem reads_le {w n : Nat} (h : n < 256 ^ w) : Reads (le w) n (leBytes w n) := by
  have htake : Reads (take w) (leBytes w n) (leBytes w n) := by
    have := reads_take (leBytes w n)
    rwa [length_leBytes] at this
  have hmap := htake.map (f := leNat)
  rwa [leNat_leBytes h] at hmap

theorem reads_many {p : Reader α} {enc : α → List UInt8} {as : List α}
    (h : ∀ a ∈ as, Reads p a (enc a)) : Reads (many p as.length) as (as.flatMap enc) := by
  induction as with
  | nil => exact reads_pure []
  | cons a as ih =>
    have hrest := ih fun a' ha' => h a' (mem_cons_of_mem a ha')
    exact (h a mem_cons_self).bind hrest.map

theorem reads_ofOption {o : Option α} {a : α} (h : o = some a) : Reads (ofOption o) a [] := by
  intro rest
  simp [ofOption, StateT.run, h]

theorem Reads.parse {p : Reader α} {a : α} {bs : List UInt8} (h : Reads p a bs) :
    parse p bs = some a := by
  have := h []
  rw [append_nil] at this
  rw [Reader.parse, this]
  rfl

theorem Reads.parseAll {p : Reader α} {a : α} {bs : List UInt8} (h : Reads p a bs) :
    parseAll p bs = some a := by
  have := h []
  rw [append_nil] at this
  rw [Reader.parseAll, this]
  rfl

end Reader

end Topics.Lib
