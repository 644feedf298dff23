import Mathlib.Data.List.TakeWhile
import Mathlib.Order.Lattice

/-!
# Range scans over sorted keys

A map sorted by key is asked for all keys with a property that holds on one run of the keys
from a lower bound on: skip the keys below the bound, then read as long as the property holds.
-/

namespace Topics.Lib

open List

universe u v

section Scan

variable {K : Type u} {V : Type v} [LinearOrder K]

/-- The entries from `lo` on, as long as `P` holds of the key. -/
def scanRun (lo : K) (P : K → Bool) (entries : List (K × V)) : List (K × V) :=
  (entries.dropWhile fun e => e.1 < lo).takeWhile fun e => P e.1

/-- `P` holds only from `lo` on, and without a gap. -/
structure RunFrom (lo : K) (P : K → Bool) : Prop where
  ge : ∀ {k}, P k = true → lo ≤ k
  between : ∀ {k k'}, P k = true → lo ≤ k' → k' < k → P k' = true

variable {lo : K} {P : K → Bool} {entries : List (K × V)} {e : K × V}

theorem mem_of_mem_scanRun (h : e ∈ scanRun lo P entries) : e ∈ entries ∧ P e.1 = true := by
  have hP : P e.1 = true := mem_takeWhile_imp (p := fun e : K × V => P e.1) h
  exact ⟨(dropWhile_suffix _).subset (( takeWhile_prefix _).subset h), hP⟩

/-- An entry is read if `P` holds up to it. -/
theorem mem_takeWhile_of_run (hsorted : entries.Pairwise fun e e' => e.1 < e'.1)
    (hmem : e ∈ entries) (hrun : ∀ d ∈ entries, d.1 ≤ e.1 → P d.1 = true) :
    e ∈ entries.takeWhile fun e => P e.1 := by
  induction entries with
  | nil => cases hmem
  | cons d entries ih =>
    obtain ⟨hd, hrest⟩ := pairwise_cons.mp hsorted
    have hle : d.1 ≤ e.1 := by
      rcases mem_cons.mp hmem with rfl | hmem
      · exact le_rfl
      · exact le_of_lt (hd e hmem)
    rw [takeWhile_cons, if_pos (hrun d mem_cons_self hle)]
    rcases mem_cons.mp hmem with rfl | hmem
    · exact mem_cons_self
    · refine mem_cons_of_mem d (ih hrest hmem fun d' hd' => ?_)
      exact hrun d' (mem_cons_of_mem d hd')

/-- **A scan over sorted keys misses nothing.** -/
theorem mem_scanRun_iff (hP : RunFrom lo P) (hsorted : entries.Pairwise fun e e' => e.1 < e'.1) :
    e ∈ scanRun lo P entries ↔ e ∈ entries ∧ P e.1 = true := by
  refine ⟨mem_of_mem_scanRun, fun h => ?_⟩
  obtain ⟨hmem, he⟩ := h
  unfold scanRun
  induction entries with
  | nil => cases hmem
  | cons d entries ih =>
    obtain ⟨hd, hrest⟩ := pairwise_cons.mp hsorted
    rw [dropWhile_cons]
    split
    · -- still below the bound, where the entry is not
      rename_i hlt
      refine ih hrest ((mem_cons.mp hmem).resolve_left ?_)
      rintro rfl
      exact absurd (hP.ge he) (not_le.mpr (of_decide_eq_true hlt))
    · rename_i hlt
      have hlo : lo ≤ d.1 := not_lt.mp fun h => hlt (decide_eq_true h)
      -- from here on every key up to the entry's has the property
      refine mem_takeWhile_of_run hsorted hmem fun d' hd' hle => ?_
      rcases lt_or_eq_of_le hle with hlt' | heq
      · refine hP.between he ?_ hlt'
        rcases mem_cons.mp hd' with rfl | hd'
        · exact hlo
        · exact hlo.trans (le_of_lt (hd d' hd'))
      · rw [heq]
        exact he

end Scan

/-! ## Prefixes in the lexicographic order -/

section Prefix

variable {α : Type u} [LinearOrder α]

theorem not_lt_of_isPrefix {p k : List α} (h : p <+: k) : ¬ k < p := by
  obtain ⟨t, rfl⟩ := h
  induction p with
  | nil => exact not_lt_nil _
  | cons a p ih =>
    rw [cons_append, cons_lt_cons_iff]
    rintro (hlt | ⟨-, hlt⟩)
    · exact lt_irrefl a hlt
    · exact ih hlt

/-- Between a prefix and an extension of it every key has the prefix. -/
theorem isPrefix_of_between {p k k' : List α} (hk : p <+: k) (hle : ¬ k' < p) (hlt : k' < k) :
    p <+: k' := by
  induction p generalizing k k' with
  | nil => exact nil_prefix
  | cons a p ih =>
    obtain ⟨t, rfl⟩ := hk
    cases k' with
    | nil => exact absurd (nil_lt_cons a p) hle
    | cons b k' =>
      rw [cons_lt_cons_iff] at hle
      rw [cons_append, cons_lt_cons_iff] at hlt
      rcases hlt with hba | ⟨rfl, hlt⟩
      · exact absurd (.inl hba) hle
      · have hle' : ¬ k' < p := fun h => hle (.inr ⟨rfl, h⟩)
        exact (cons_prefix_cons).mpr ⟨rfl, ih (prefix_append p t) hle' hlt⟩

end Prefix

end Topics.Lib
