import Mathlib.Data.List.Basic
import Mathlib.Data.List.Perm.Basic

/-!
# Lists cut into buckets

A list whose elements are spread over numbered buckets, read bucket by bucket.
-/

namespace Topics.Lib

open List

universe u

variable {α : Type u}

/-- The elements of `l` bucket by bucket; each bucket keeps the order of `l`. -/
def buckets (key : α → Nat) (n : Nat) (l : List α) : List α :=
  (List.range n).flatMap fun g => l.filter fun a => key a = g

variable {key : α → Nat}

theorem buckets_succ (n : Nat) (l : List α) :
    buckets key (n + 1) l = buckets key n l ++ l.filter fun a => key a = n := by
  simp [buckets, range_succ]

/-- Elements outside the first `n` buckets do not matter. -/
theorem buckets_filter_lt (n : Nat) (l : List α) :
    buckets key n (l.filter fun a => key a < n) = buckets key n l := by
  unfold buckets
  refine flatMap_congr fun g hg => ?_
  rw [filter_filter]
  refine filter_congr fun a _ => ?_
  have := mem_range.mp hg
  by_cases h : key a = g
  · simp [h, this]
  · simp [h]

/-- Reading bucket by bucket commutes with any selection. -/
theorem filter_buckets (p : α → Bool) (n : Nat) (l : List α) :
    (buckets key n l).filter p = buckets key n (l.filter p) := by
  unfold buckets
  rw [filter_flatMap]
  refine flatMap_congr fun g _ => ?_
  rw [filter_filter, filter_filter]
  exact filter_congr fun a _ => Bool.and_comm _ _

/-- The elements of the first `n + 1` buckets that are not in the first `n`. -/
private theorem filter_not_lt {n : Nat} {l : List α} (h : ∀ a ∈ l, key a < n + 1) :
    (l.filter fun a => !decide (key a < n)) = l.filter fun a => key a = n := by
  refine filter_congr fun a ha => ?_
  have := h a ha
  by_cases hn : key a < n
  · simp [hn, Nat.ne_of_lt hn]
  · simp [hn]
    omega

/-- **Nothing is lost or added.** -/
theorem buckets_perm {n : Nat} {l : List α} (h : ∀ a ∈ l, key a < n) :
    (buckets key n l).Perm l := by
  induction n generalizing l with
  | zero =>
    cases l with
    | nil => exact List.Perm.nil
    | cons a l => exact absurd (h a mem_cons_self) (Nat.not_lt_zero _)
  | succ n ih =>
    rw [buckets_succ, ← buckets_filter_lt, ← filter_not_lt h]
    have hlow : ∀ a ∈ l.filter (fun a => key a < n), key a < n :=
      fun a ha => of_decide_eq_true (mem_filter.mp ha).2
    exact ((ih hlow).append_right _).trans (filter_append_perm _ l)

/-- **Keys that never fall keep the order.** -/
theorem buckets_eq_self {n : Nat} {l : List α} (h : ∀ a ∈ l, key a < n)
    (hmono : l.Pairwise fun a b => key a ≤ key b) : buckets key n l = l := by
  induction n generalizing l with
  | zero =>
    cases l with
    | nil => rfl
    | cons a l => exact absurd (h a mem_cons_self) (Nat.not_lt_zero _)
  | succ n ih =>
    -- in a list with rising keys the last bucket is the end of the list
    have hcut : ∀ l : List α, l.Pairwise (fun a b => key a ≤ key b) →
        (l.filter fun a => key a < n) ++ (l.filter fun a => !decide (key a < n)) = l := by
      intro l hl
      induction l with
      | nil => rfl
      | cons a l ihl =>
        obtain ⟨ha, hl⟩ := pairwise_cons.mp hl
        by_cases hn : key a < n
        · simpa [hn] using ihl hl
        · have hall : ∀ b ∈ l, ¬ key b < n := fun b hb hlt => hn (Nat.lt_of_le_of_lt (ha b hb) hlt)
          have hnone : (l.filter fun a => key a < n) = [] := by
            simpa [filter_eq_nil_iff] using hall
          have hsame : (l.filter fun a => !decide (key a < n)) = l := by
            simpa [filter_eq_self] using hall
          have hnone' : ((a :: l).filter fun a => key a < n) = [] := by
            rw [filter_cons_of_neg (by simpa using hn), hnone]
          have hsame' : ((a :: l).filter fun a => !decide (key a < n)) = a :: l := by
            rw [filter_cons_of_pos (by simpa using hn), hsame]
          rw [hnone', hsame', nil_append]
    rw [buckets_succ, ← buckets_filter_lt, ← filter_not_lt h,
      ih (fun a ha => of_decide_eq_true (mem_filter.mp ha).2) (hmono.filter _), hcut l hmono]

end Topics.Lib
