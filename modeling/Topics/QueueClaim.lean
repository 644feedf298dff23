import Mathlib.Algebra.BigOperators.Group.List.Basic
import Topics.QueueProjection

/-!
# The claim pass

`Engine::run_claim_cohort` (`engine/queue.rs`) hands jobs to a cohort of claimers in one
critical section.  The loop takes one job at a time from `next_claimable`, diverts it to the
dead-letter topic if it was delivered too often, and otherwise leases it to the next claimer
that still wants one.
-/

namespace Topics

open List

/-- `config::MAX_CLAIM`. -/
def maxClaim : Nat := 1000

/-- `Claimer`: who wants jobs, and how many. -/
structure Claimer where
  node : String
  max : Nat
  workConn : Option Nat
  deriving DecidableEq, Repr

/-- What a pass reads from the topic's config and the clock. -/
structure ClaimTerms where
  maxDeliveries : Nat
  /-- Whether a `dead_letter` topic is configured. -/
  deadLetter : Bool
  deadlineMs : Int

/-- The locals of the claim loop.  `leased` is the list of lease events: claimer, seq, lease
id and delivery count. -/
structure ClaimPass where
  q : QueueProjection
  remaining : List Nat
  rr : Nat
  leased : List (Nat × Nat × Nat × Nat)
  toDeadLetter : List Nat

namespace ClaimPass

/-- The round-robin search for a claimer with demand left, giving up after `tries` steps. -/
def seek (remaining : List Nat) : Nat → Nat → Nat
  | 0, rr => rr
  | tries + 1, rr =>
    if remaining.getD rr 0 = 0 then seek remaining tries ((rr + 1) % remaining.length) else rr

def divert (st : ClaimPass) (q : QueueProjection) (rr seq : Nat) : ClaimPass :=
  { st with
    q := { q with deliveries := q.deliveries.erase seq, deadLettered := q.deadLettered + 1 }
    rr := rr
    toDeadLetter := st.toDeadLetter ++ [seq] }

def lease (claimers : List Claimer) (terms : ClaimTerms) (st : ClaimPass) (q : QueueProjection)
    (rr seq : Nat) : ClaimPass :=
  let thisDelivery := q.deliveries.getD seq 0 + 1
  { st with
    q := { q with
      nextLeaseId := q.nextLeaseId + 1
      deliveries := q.deliveries.insert seq thisDelivery
      leases := q.leases.insert seq
        { node := (claimers[rr]?.map Claimer.node).getD ""
          leaseId := q.nextLeaseId
          deadlineMs := terms.deadlineMs
          byWorkConn := claimers[rr]?.bind Claimer.workConn } }
    remaining := st.remaining.set rr (st.remaining.getD rr 0 - 1)
    rr := (rr + 1) % claimers.length
    leased := st.leased ++ [(rr, seq, q.nextLeaseId, thisDelivery)] }

/-- The claim loop; every round that goes on takes a job, so `fuel` bounds the jobs. -/
def claimLoop (ix : TopicIndex) (head : Nat) (claimers : List Claimer) (terms : ClaimTerms) :
    Nat → ClaimPass → ClaimPass
  | 0, st => st
  | fuel + 1, st =>
    if st.remaining.sum = 0 then st
    else
      let rr := seek st.remaining st.remaining.length st.rr
      if st.remaining.getD rr 0 = 0 then { st with rr := rr }
      else
        match st.q.nextClaimable ix head with
        | (none, q) => { st with q := q, rr := rr }
        | (some seq, q) =>
          if 0 < terms.maxDeliveries ∧ terms.maxDeliveries < q.deliveries.getD seq 0 + 1 ∧
              terms.deadLetter = true then
            claimLoop ix head claimers terms fuel (st.divert q rr seq)
          else claimLoop ix head claimers terms fuel (st.lease claimers terms q rr seq)

def handed (st : ClaimPass) : List Nat := st.leased.map (·.2.1) ++ st.toDeadLetter

end ClaimPass

/-- The jobs that are left to look at: the freelist and the seqs from the cursor to the head. -/
def QueueProjection.backlog (q : QueueProjection) (head : Nat) : Nat :=
  q.reclaim.length + (head + 1 - q.claimCursor)

/-- `run_claim_cohort` at `now`: sweep, then hand out jobs up to the clamped demands. -/
def runClaimCohort (q : QueueProjection) (ix : TopicIndex) (head : Nat)
    (claimers : List Claimer) (terms : ClaimTerms) (now : Int) : ClaimPass :=
  let q := q.sweepExpired now
  ClaimPass.claimLoop ix head claimers terms (q.backlog head + 1)
    { q := q
      remaining := claimers.map fun c => max 1 (min c.max maxClaim)
      rr := 0
      leased := []
      toDeadLetter := [] }

/-! ## One job -/

namespace QueueProjection

/-- A job that may be handed out: it is live and nobody holds a lease on it. -/
def Idle (q : QueueProjection) (ix : TopicIndex) (s : Nat) : Prop :=
  (ix.live s).isSome = true ∧ q.leases.contains s = false

def Claimable (q : QueueProjection) (ix : TopicIndex) (head s : Nat) : Prop :=
  q.Idle ix s ∧ (s ∈ q.reclaim ∨ q.claimCursor ≤ s ∧ s ≤ head)

theorem claimReclaimed_cases (ix : TopicIndex) (l : List Nat) (q : QueueProjection) :
    (claimReclaimed ix l q = (none, { q with reclaim := [] }) ∧ ∀ s ∈ l, ¬ q.Idle ix s) ∨
      ∃ skip x rest, l = skip ++ x :: rest ∧ q.Idle ix x ∧ (∀ s ∈ skip, ¬ q.Idle ix s) ∧
        claimReclaimed ix l q = (some x, { q with reclaim := rest }) := by
  induction l with
  | nil => exact Or.inl ⟨rfl, nofun⟩
  | cons a l ih =>
    -- a job that cannot be handed out is popped and forgotten
    have hskip : ¬ q.Idle ix a → claimReclaimed ix (a :: l) q = claimReclaimed ix l q := by
      intro hn
      cases hc : q.leases.contains a with
      | true => simp only [claimReclaimed, hc, if_true]
      | false =>
        cases hl : ix.live a with
        | none => simp only [claimReclaimed, hl, ite_self]
        | some r => exact absurd ⟨by rw [hl]; rfl, hc⟩ hn
    by_cases ha : q.Idle ix a
    · refine Or.inr ⟨[], a, l, rfl, ha, nofun, ?_⟩
      obtain ⟨r, hr⟩ := Option.isSome_iff_exists.mp ha.1
      simp [claimReclaimed, ha.2, hr]
    · rcases ih with ⟨heq, hnone⟩ | ⟨skip, x, rest, rfl, hx, hnone, heq⟩
      · refine Or.inl ⟨(hskip ha).trans heq, ?_⟩
        exact forall_mem_cons.mpr ⟨ha, hnone⟩
      · refine Or.inr ⟨a :: skip, x, rest, rfl, hx, ?_, (hskip ha).trans heq⟩
        exact forall_mem_cons.mpr ⟨ha, hnone⟩

theorem claimFresh_cases (ix : TopicIndex) (n : Nat) (q : QueueProjection) :
    (claimFresh ix n q = (none, { q with claimCursor := q.claimCursor + n }) ∧
      ∀ s, q.claimCursor ≤ s → s < q.claimCursor + n → ¬ q.Idle ix s) ∨
    ∃ x, q.claimCursor ≤ x ∧ x < q.claimCursor + n ∧ q.Idle ix x ∧
      (∀ s, q.claimCursor ≤ s → s < x → ¬ q.Idle ix s) ∧
      claimFresh ix n q = (some x, { q with claimCursor := x + 1 }) := by
  induction n generalizing q with
  | zero => exact Or.inl ⟨rfl, fun s _ h' => by omega⟩
  | succ n ih =>
    have hskip : ¬ q.Idle ix q.claimCursor → claimFresh ix (n + 1) q =
        claimFresh ix n { q with claimCursor := q.claimCursor + 1 } := by
      intro hn
      cases hc : q.leases.contains q.claimCursor with
      | true => simp only [claimFresh, hc, if_true]
      | false =>
        cases hl : ix.live q.claimCursor with
        | none => simp only [claimFresh, hl, ite_self]
        | some r => exact absurd ⟨by rw [hl]; rfl, hc⟩ hn
    by_cases ha : q.Idle ix q.claimCursor
    · refine Or.inr ⟨q.claimCursor, le_rfl, by omega, ha, fun s _ h' => by omega, ?_⟩
      obtain ⟨r, hr⟩ := Option.isSome_iff_exists.mp ha.1
      simp [claimFresh, ha.2, hr]
    · have hfrom : ∀ s, q.claimCursor ≤ s → q.Idle ix s → q.claimCursor + 1 ≤ s := by
        intro s hs hidle
        rcases Nat.eq_or_lt_of_le hs with rfl | hlt
        · exact absurd hidle ha
        · exact hlt
      rcases ih { q with claimCursor := q.claimCursor + 1 } with
        ⟨heq, hnone⟩ | ⟨x, hx, hxn, hidle, hnone, heq⟩
      · left
        refine ⟨(hskip ha).trans (heq.trans ?_), fun s hs hsn hidle => ?_⟩
        · simp only [Nat.add_assoc, Nat.add_comm 1 n]
        · exact hnone s (hfrom s hs hidle) (show s < q.claimCursor + 1 + n by omega) hidle
      · right
        refine ⟨x, by simp only at hx; omega, by simp only at hxn; omega, hidle, ?_,
          (hskip ha).trans heq⟩
        exact fun s hs hsx hi => hnone s (hfrom s hs hi) hsx hi

variable {q q' : QueueProjection} {ix : TopicIndex} {head : Nat}

theorem nextClaimable_none (h : q.nextClaimable ix head = (none, q')) (s : Nat) :
    ¬ q.Claimable ix head s := by
  rintro ⟨hidle, hwhere⟩
  unfold nextClaimable at h
  rcases claimReclaimed_cases ix q.reclaim q with ⟨heq, hnone⟩ | ⟨_, x, rest, _, _, _, heq⟩
  · rw [heq] at h
    simp only at h
    rcases claimFresh_cases ix (head + 1 - q.claimCursor) { q with reclaim := [] } with
      ⟨_, hfresh⟩ | ⟨x, _, _, _, _, heq'⟩
    · rcases hwhere with hmem | ⟨hlo, hhi⟩
      · exact hnone s hmem hidle
      · exact hfresh s hlo (show s < q.claimCursor + (head + 1 - q.claimCursor) by omega) hidle
    · rw [heq'] at h
      cases h
  · rw [heq] at h
    cases h

theorem nextClaimable_some {head x : Nat} (h : q.nextClaimable ix head = (some x, q')) :
    q'.leases = q.leases ∧ q.Claimable ix head x ∧ q'.backlog head < q.backlog head ∧
      (∀ s, s ≠ x → q.Claimable ix head s → q'.Claimable ix head s) ∧
      ∀ s, q'.Claimable ix head s → q.Claimable ix head s := by
  unfold nextClaimable at h
  rcases claimReclaimed_cases ix q.reclaim q with ⟨heq, hnone⟩ | ⟨skip, y, rest, hl, hy, hskip, heq⟩
  · rw [heq] at h
    simp only at h
    rcases claimFresh_cases ix (head + 1 - q.claimCursor) { q with reclaim := [] } with
      ⟨heq', _⟩ | ⟨y, hlo, hhi, hidle, hbelow, heq'⟩
    · rw [heq'] at h
      cases h
    · -- the freelist is exhausted: the job comes from the cursor
      rw [heq'] at h
      cases h
      simp only at hlo hhi
      refine ⟨rfl, ⟨hidle, Or.inr ⟨hlo, by omega⟩⟩, ?_, ?_, ?_⟩
      · simp only [backlog, length_nil]
        omega
      · rintro s hne ⟨hs, hmem | ⟨hs', hs''⟩⟩
        · exact absurd hs (hnone s hmem)
        · refine ⟨hs, Or.inr ⟨?_, hs''⟩⟩
          have : ¬ s < x := fun hlt => hbelow s hs' hlt hs
          show x + 1 ≤ s
          omega
      · rintro s ⟨hs, hmem | ⟨hs', hs''⟩⟩
        · cases hmem
        · refine ⟨hs, Or.inr ⟨?_, hs''⟩⟩
          simp only at hs'
          omega
  · rw [heq] at h
    cases h
    refine ⟨rfl, ⟨hy, Or.inl ?_⟩, ?_, ?_, ?_⟩
    · rw [hl]
      exact mem_append_right _ mem_cons_self
    · simp only [backlog, hl, length_append, length_cons]
      omega
    · rintro s hne ⟨hs, hmem | hcur⟩
      · rw [hl] at hmem
        rcases mem_append.mp hmem with hmem | hmem
        · exact absurd hs (hskip s hmem)
        · exact ⟨hs, Or.inl ((mem_cons.mp hmem).resolve_left hne)⟩
      · exact ⟨hs, Or.inr hcur⟩
    · rintro s ⟨hs, hmem | hcur⟩
      · refine ⟨hs, Or.inl ?_⟩
        rw [hl]
        exact mem_append_right _ (mem_cons_of_mem _ hmem)
      · exact ⟨hs, Or.inr hcur⟩

end QueueProjection

/-! ## The whole pass -/

namespace ClaimPass

open QueueProjection

variable {remaining : List Nat} {rr : Nat}

theorem seek_spec (tries : Nat) {rr j : Nat} (hj : j < tries) (hrr : rr < remaining.length)
    (hpos : remaining.getD ((rr + j) % remaining.length) 0 ≠ 0) :
    remaining.getD (seek remaining tries rr) 0 ≠ 0 := by
  induction tries generalizing rr j with
  | zero => omega
  | succ tries ih =>
    unfold seek
    split
    · rename_i hzero
      cases j with
      | zero =>
        rw [Nat.add_zero, Nat.mod_eq_of_lt hrr] at hpos
        exact absurd hzero hpos
      | succ j =>
        refine ih (Nat.lt_of_succ_lt_succ hj) (Nat.mod_lt _ (by omega)) ?_
        rw [Nat.mod_add_mod, Nat.add_assoc, Nat.add_comm 1 j]
        exact hpos
    · rename_i hpos'
      exact hpos'

theorem seek_ne_zero (hrr : rr < remaining.length) (hsum : remaining.sum ≠ 0) :
    remaining.getD (seek remaining remaining.length rr) 0 ≠ 0 := by
  obtain ⟨x, hx, hx0⟩ : ∃ x ∈ remaining, x ≠ 0 := by
    by_contra hall
    push Not at hall
    exact hsum (sum_eq_zero hall)
  obtain ⟨i, hi, rfl⟩ := mem_iff_getElem.mp hx
  -- the claimer at `i` is `(i + n - rr) % n` steps away from `rr`
  refine seek_spec remaining.length (j := (i + remaining.length - rr) % remaining.length)
    (Nat.mod_lt _ (by omega)) hrr ?_
  rw [Nat.add_mod_mod, show rr + (i + remaining.length - rr) = i + remaining.length by omega,
    Nat.add_mod_right, Nat.mod_eq_of_lt hi]
  simpa [getD_eq_getElem?_getD, getElem?_eq_getElem hi] using hx0

theorem seek_lt (tries : Nat) (hrr : rr < remaining.length) :
    seek remaining tries rr < remaining.length := by
  induction tries generalizing rr with
  | zero => exact hrr
  | succ tries ih =>
    unfold seek
    split
    · exact ih (Nat.mod_lt _ (by omega))
    · exact hrr

theorem sum_set_pred {l : List Nat} {i : Nat} (h : l.getD i 0 ≠ 0) :
    (l.set i (l.getD i 0 - 1)).sum + 1 = l.sum := by
  induction l generalizing i with
  | nil => simp at h
  | cons a l ih =>
    cases i with
    | zero =>
      simp only [getD_cons_zero] at h
      simp only [set_cons_zero, getD_cons_zero, sum_cons]
      omega
    | succ i =>
      have := ih (i := i) (by simpa using h)
      simp only [getD_cons_succ, set_cons_succ, sum_cons]
      omega

section Loop

variable {ix : TopicIndex} {head : Nat} {claimers : List Claimer} {terms : ClaimTerms}

/-- One round that takes the job `x`: what is handed out, what stays claimable, and how the
budget moves. -/
structure Took (ix : TopicIndex) (head x : Nat) (st st' : ClaimPass) : Prop where
  handed : ∀ s, s ∈ st'.handed ↔ s ∈ st.handed ∨ s = x
  claimable : ∀ s, s ≠ x → st.q.Claimable ix head s → st'.q.Claimable ix head s
  sound : ∀ s, st'.q.Claimable ix head s → st.q.Claimable ix head s
  budget : st'.q.backlog head + 1 ≤ st.q.backlog head
  demand : st.remaining.sum ≤ st'.remaining.sum + 1
  length : st'.remaining.length = st.remaining.length

variable {st : ClaimPass} {q : QueueProjection} {x : Nat}

theorem took_divert (rr : Nat) (h : st.q.nextClaimable ix head = (some x, q)) :
    Took ix head x st (st.divert q rr x) := by
  obtain ⟨hleases, _, hback, hkeep, hsound⟩ := nextClaimable_some h
  refine ⟨fun s => ?_, hkeep, hsound, hback, Nat.le_succ _, rfl⟩
  simp [ClaimPass.handed, divert, or_assoc]

theorem took_lease {x rr : Nat} (hrr : st.remaining.getD rr 0 ≠ 0)
    (h : st.q.nextClaimable ix head = (some x, q)) :
    Took ix head x st (st.lease claimers terms q rr x) := by
  obtain ⟨hleases, _, hback, hkeep, hsound⟩ := nextClaimable_some h
  refine ⟨fun s => ?_, ?_, ?_, hback, ?_, length_set⟩
  · simp [ClaimPass.handed, lease, or_assoc, or_comm]
  · rintro s hne hs
    obtain ⟨⟨hlive, hfree⟩, hwhere⟩ := hkeep s hne hs
    refine ⟨⟨hlive, ?_⟩, hwhere⟩
    simp only [lease, Std.TreeMap.contains_insert, hfree, Bool.or_false]
    exact beq_eq_false_iff_ne.mpr fun he => hne (Nat.compare_eq_eq.mp he).symm
  · rintro s ⟨⟨hlive, hfree⟩, hwhere⟩
    refine hsound s ⟨⟨hlive, ?_⟩, hwhere⟩
    simp only [lease, Std.TreeMap.contains_insert, Bool.or_eq_false_iff] at hfree
    exact hfree.2
  · have := sum_set_pred hrr
    simp only [lease]
    omega

variable (ix head terms) in
theorem claimLoop_round (fuel : Nat) (hlen : claimers.length = st.remaining.length)
    (hrr : st.rr < st.remaining.length) (hsum : st.remaining.sum ≠ 0) :
    ((∀ s, ¬ st.q.Claimable ix head s) ∧
      (claimLoop ix head claimers terms (fuel + 1) st).handed = st.handed) ∨
    ∃ x st', st.q.Claimable ix head x ∧ Took ix head x st st' ∧
      st'.rr < st'.remaining.length ∧
      claimLoop ix head claimers terms (fuel + 1) st =
        claimLoop ix head claimers terms fuel st' := by
  have hseek := seek_ne_zero hrr hsum
  have hlt := seek_lt st.remaining.length hrr
  rcases hnext : st.q.nextClaimable ix head with ⟨_ | x, q⟩
  · refine Or.inl ⟨nextClaimable_none hnext, ?_⟩
    simp only [claimLoop, hsum, if_false, hseek, hnext]
    rfl
  · refine Or.inr ⟨x, ?_⟩
    have hx := (nextClaimable_some hnext).2.1
    by_cases hdead : 0 < terms.maxDeliveries ∧
        terms.maxDeliveries < q.deliveries.getD x 0 + 1 ∧ terms.deadLetter = true
    · refine ⟨_, hx, took_divert (seek st.remaining st.remaining.length st.rr) hnext, hlt, ?_⟩
      simp only [claimLoop, hsum, if_false, hseek, hnext, hdead, and_self, if_true]
    · refine ⟨st.lease claimers terms q (seek st.remaining st.remaining.length st.rr) x, hx,
        took_lease hseek hnext, ?_, ?_⟩
      · simp only [lease, length_set, hlen]
        exact Nat.mod_lt _ (by omega)
      · simp only [claimLoop, hsum, if_false, hseek, hnext, hdead]

/-- **With enough demand the loop hands out exactly what is claimable.**  Every round spends
one unit of the backlog, and the demand outlasts it. -/
theorem handed_claimLoop_iff (fuel : Nat) (hlen : claimers.length = st.remaining.length)
    (hrr : st.rr < st.remaining.length) (hfuel : st.q.backlog head < fuel)
    (hsum : st.q.backlog head < st.remaining.sum) (s : Nat) :
    s ∈ (claimLoop ix head claimers terms fuel st).handed ↔
      s ∈ st.handed ∨ st.q.Claimable ix head s := by
  induction fuel generalizing st with
  | zero => omega
  | succ fuel ih =>
    rcases claimLoop_round ix head terms fuel hlen hrr (by omega) with
      ⟨hnone, heq⟩ | ⟨x, st', hx, htook, hrr', heq⟩
    · rw [heq]
      exact ⟨Or.inl, fun h => h.resolve_right (hnone s)⟩
    · have hbudget := htook.budget
      have hdemand := htook.demand
      rw [heq, ih (hlen.trans htook.length.symm) hrr' (by omega) (by omega), htook.handed]
      constructor
      · rintro ((hs | rfl) | hs)
        · exact Or.inl hs
        · exact Or.inr hx
        · exact Or.inr (htook.sound s hs)
      · rintro (hs | hs)
        · exact Or.inl (Or.inl hs)
        · by_cases hsx : s = x
          · exact Or.inl (Or.inr hsx)
          · exact Or.inr (htook.claimable s hsx hs)

end Loop

end ClaimPass

/-- **An unbounded claim**: a pass whose demand exceeds the backlog hands out exactly the jobs
that are claimable after the sweep. -/
theorem handed_runClaimCohort_iff {q : QueueProjection} {ix : TopicIndex} {head : Nat}
    {claimers : List Claimer} {terms : ClaimTerms} {now : Int}
    (hdemand : (q.sweepExpired now).backlog head <
      (claimers.map fun c => max 1 (min c.max maxClaim)).sum) (s : Nat) :
    s ∈ (runClaimCohort q ix head claimers terms now).handed ↔
      (q.sweepExpired now).Claimable ix head s := by
  have hpos : 0 < claimers.length := by
    cases claimers with
    | nil => simp at hdemand
    | cons => exact Nat.succ_pos _
  refine (ClaimPass.handed_claimLoop_iff _ ?_ ?_ (Nat.lt_add_one _) hdemand s).trans ?_
  · exact (length_map _).symm
  · simpa using hpos
  · simp [ClaimPass.handed]

end Topics
