import Mathlib.Algebra.Order.BigOperators.Group.Finset
import Topics.Lib.Threads

/-!
# What the threads hold together

Of some resource every thread holds a share, which its code tells.  All but finitely many threads hold
nothing, so the shares have a sum; a counter that is meant to agree with it changes together with the
code of one thread at a time.
-/

namespace Topics.Lib

universe v

/-- The shares of all threads add up to `n`. -/
def Tally {I : Type v} (share : List I → Nat) (code : Nat → List I) (n : Nat) : Prop :=
  ∃ T : Finset Nat, (∀ t ∉ T, share (code t) = 0) ∧ ∑ t ∈ T, share (code t) = n

namespace Tally

variable {I : Type v} {share : List I → Nat} {code : Nat → List I} {n n' : Nat}

theorem zero (h : ∀ t, share (code t) = 0) : Tally share code 0 :=
  ⟨∅, fun t _ => h t, Finset.sum_empty⟩

/-- One thread goes on to other code, and the sum changes by what its share does. -/
theorem update (h : Tally share code n) {t : Nat} {c : List I}
    (hn : n' + share (code t) = n + share c) : Tally share (Function.update code t c) n' := by
  obtain ⟨T, hout, hsum⟩ := h
  refine ⟨insert t T, fun t' ht' => ?_, ?_⟩
  · rw [Finset.mem_insert, not_or] at ht'
    rw [Function.update_of_ne ht'.1]
    exact hout t' ht'.2
  · have hold : ∑ t' ∈ insert t T, share (code t') = n := by
      rw [Finset.sum_insert_of_eq_zero_if_notMem (hout t), hsum]
    have hnew : ∑ t' ∈ (insert t T).erase t, share (Function.update code t c t') =
        ∑ t' ∈ (insert t T).erase t, share (code t') := by
      apply Finset.sum_congr rfl
      intro t' ht'
      rw [Function.update_of_ne (Finset.ne_of_mem_erase ht')]
    rw [← Finset.add_sum_erase _ _ (Finset.mem_insert_self t T)] at hold ⊢
    rw [hnew, Function.update_self]
    omega

/-- Threads with a share are no more than the sum. -/
theorem card_le (h : Tally share code n) {T : Finset Nat} (hT : ∀ t ∈ T, 0 < share (code t)) :
    T.card ≤ n := by
  obtain ⟨T₀, hout, rfl⟩ := h
  have hsub : T ⊆ T₀ := by
    intro t ht
    by_contra hmem
    exact (hT t ht).ne' (hout t hmem)
  calc T.card = ∑ _t ∈ T, 1 := Finset.card_eq_sum_ones T
    _ ≤ ∑ t ∈ T, share (code t) := Finset.sum_le_sum hT
    _ ≤ ∑ t ∈ T₀, share (code t) := Finset.sum_le_sum_of_subset hsub

theorem pos (h : Tally share code n) {t : Nat} (ht : 0 < share (code t)) : 0 < n := by
  have hle := h.card_le (T := {t}) fun t' ht' => Finset.mem_singleton.mp ht' ▸ ht
  rwa [Finset.card_singleton] at hle

theorem eq_zero (h : Tally share code n) (hall : ∀ t, share (code t) = 0) : n = 0 := by
  obtain ⟨T, -, rfl⟩ := h
  exact Finset.sum_eq_zero fun t _ => hall t

end Tally

end Topics.Lib
