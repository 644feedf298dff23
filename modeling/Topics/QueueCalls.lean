import Topics.AckedJobs
import Topics.QueueRecovery

/-!
# The critical sections of a queue

Besides the claim pass, four calls work on the lease projection under its lock: `ack_fenced`,
`nack_fenced`, `extend_fenced` and `release_work_conn`.  The first three walk the requested seqs
and act on the leases that the node holds under the token it gives.
-/

namespace Topics

/-- `config::MAX_NACK_DELAY_MS`. -/
def maxNackDelayMs : Nat := 86400000

namespace QueueProjection

/-! ## The sections -/

/-- The walk of a fenced call: act on the leases `node` holds, and collect seq and lease id. -/
def heldLoop (node : String) (leaseIds : List (Option Nat))
    (act : QueueProjection → Nat → Lease → QueueProjection) :
    List (Nat × Nat) → QueueProjection × List (Nat × Nat) → QueueProjection × List (Nat × Nat)
  | [], acc => acc
  | (seq, i) :: rest, (q, done) =>
    match q.leases[seq]? with
    | some l =>
      if l.node = node ∧ leaseTokenOk leaseIds i l.leaseId = true then
        heldLoop node leaseIds act rest (act q seq l, done ++ [(seq, l.leaseId)])
      else heldLoop node leaseIds act rest (q, done)
    | none => heldLoop node leaseIds act rest (q, done)

def ackOne (q : QueueProjection) (seq : Nat) (_ : Lease) : QueueProjection :=
  { q with leases := q.leases.erase seq, deliveries := q.deliveries.erase seq }

/-- What a nack does to a held lease: the job waits for its delay, or is reclaimable at once. -/
def nackOne (delayMs : Nat) (now : Int) (q : QueueProjection) (seq : Nat) (_ : Lease) :
    QueueProjection :=
  let delay := min delayMs maxNackDelayMs
  let q := { q with leases := q.leases.erase seq }
  if delay > 0 then q.pushDelayed (min (2 ^ 63 - 1) (now + delay)) seq else q.pushReclaim seq

def extendOne (deadline : Int) (q : QueueProjection) (seq : Nat) (l : Lease) : QueueProjection :=
  { q with leases := q.leases.insert seq { l with deadlineMs := deadline } }

/-- The critical section of `nack_fenced`. -/
def nackLeases (q : QueueProjection) (node : String) (seqs : List Nat)
    (leaseIds : List (Option Nat)) (delayMs : Nat) (now : Int) :
    QueueProjection × List (Nat × Nat) :=
  heldLoop node leaseIds (nackOne delayMs now) seqs.zipIdx (q.sweepExpired now, [])

/-- The deadline `extend_fenced` sets. -/
def extendDeadline (leaseMs : Nat) (now : Int) : Int :=
  min (2 ^ 63 - 1) (now + (max minLeaseMs (min leaseMs maxLeaseMs) : Nat))

/-- The critical section of `extend_fenced`. -/
def extendLeases (q : QueueProjection) (node : String) (seqs : List Nat)
    (leaseIds : List (Option Nat)) (leaseMs : Nat) (now : Int) :
    QueueProjection × List (Nat × Nat) :=
  heldLoop node leaseIds (extendOne (extendDeadline leaseMs now)) seqs.zipIdx
    (q.sweepExpired now, [])

/-- The leases of a `/work` connection. -/
def connLeases (q : QueueProjection) (conn : Nat) : List (Nat × Lease) :=
  q.leases.toList.filter fun (_, l) => l.byWorkConn = some conn

/-- The critical section of `release_work_conn`, which does not sweep. -/
def releaseConn (q : QueueProjection) (conn : Nat) :
    QueueProjection × List (Nat × String × Nat) :=
  ((q.connLeases conn).foldl (fun q e => q.dropLease e.1) q,
    (q.connLeases conn).map fun (seq, l) => (seq, l.node, l.leaseId))

/-- The argument checks of the three fenced calls. -/
def fencedRefuses (node : String) (seqs : List Nat) (leaseIds : List (Option Nat)) : Bool :=
  decide (node = "" ∨ maxClaim < seqs.length ∨ (leaseIds ≠ [] ∧ leaseIds.length ≠ seqs.length))

/-! ## Rules -/

theorem ackLoop_eq_heldLoop (node : String) (leaseIds : List (Option Nat)) (l : List (Nat × Nat))
    (acc : QueueProjection × List (Nat × Nat)) :
    ackLoop node leaseIds l acc = heldLoop node leaseIds ackOne l acc := by
  induction l generalizing acc with
  | nil => rfl
  | cons e l ih =>
    obtain ⟨seq, i⟩ := e
    obtain ⟨q, done⟩ := acc
    cases hl : q.leases[seq]? with
    | none =>
      simp only [ackLoop, heldLoop, hl]
      exact ih _
    | some lease =>
      simp only [ackLoop, heldLoop, hl]
      split
      all_goals exact ih _

theorem heldLoop_induct {node : String} {leaseIds : List (Option Nat)}
    {act : QueueProjection → Nat → Lease → QueueProjection}
    {P : QueueProjection → List (Nat × Nat) → Prop}
    (hact : ∀ q done seq l, q.leases[seq]? = some l → l.node = node → P q done →
      P (act q seq l) (done ++ [(seq, l.leaseId)]))
    (l : List (Nat × Nat)) {acc : QueueProjection × List (Nat × Nat)} (h : P acc.1 acc.2) :
    P (heldLoop node leaseIds act l acc).1 (heldLoop node leaseIds act l acc).2 := by
  induction l generalizing acc with
  | nil => exact h
  | cons e l ih =>
    obtain ⟨seq, i⟩ := e
    obtain ⟨q, done⟩ := acc
    unfold heldLoop
    split
    · rename_i l' hl
      split
      · rename_i hheld
        exact ih (hact q done seq l' hl hheld.1 h)
      · exact ih h
    · exact ih h

/-! ## The sweep -/

@[simp] theorem pushReclaim_deliveries (q : QueueProjection) (x : Nat) :
    (q.pushReclaim x).deliveries = q.deliveries := by
  unfold pushReclaim
  split <;> rfl

@[simp] theorem pushReclaim_nextLeaseId (q : QueueProjection) (x : Nat) :
    (q.pushReclaim x).nextLeaseId = q.nextLeaseId := by
  unfold pushReclaim
  split <;> rfl

theorem sweepDelayed_fields (now : Int) (l : List (Int × Nat)) (q : QueueProjection) :
    (sweepDelayed now l q).leases = q.leases ∧ (sweepDelayed now l q).deliveries = q.deliveries ∧
      (sweepDelayed now l q).nextLeaseId = q.nextLeaseId := by
  induction l generalizing q with
  | nil => exact ⟨rfl, rfl, rfl⟩
  | cons e l ih =>
    obtain ⟨readyAt, seq⟩ := e
    unfold sweepDelayed
    split
    · exact ⟨rfl, rfl, rfl⟩
    · obtain ⟨hleases, hdeliveries, hnext⟩ := ih (if q.leases.contains seq then q else q.pushReclaim seq)
      refine ⟨hleases.trans ?_, hdeliveries.trans ?_, hnext.trans ?_⟩
      all_goals split <;> simp

theorem foldl_dropLease_fields (l : List Nat) (q : QueueProjection) :
    (l.foldl dropLease q).deliveries = q.deliveries ∧
      (l.foldl dropLease q).nextLeaseId = q.nextLeaseId ∧
      ∀ s : Nat, (l.foldl dropLease q).leases[s]? = if s ∈ l then none else q.leases[s]? := by
  induction l generalizing q with
  | nil => exact ⟨rfl, rfl, fun _ => by simp⟩
  | cons x l ih =>
    obtain ⟨hdeliveries, hnext, hleases⟩ := ih (q.dropLease x)
    refine ⟨hdeliveries.trans (by simp [dropLease]), hnext.trans (by simp [dropLease]), fun s => ?_⟩
    rw [List.foldl_cons, hleases]
    by_cases hs : s = x
    · subst hs
      simp [dropLease]
    · have hx : x ≠ s := fun h => hs h.symm
      simp [dropLease, Std.TreeMap.getElem?_erase, hs, hx]

theorem releaseConn_eq_foldl (q : QueueProjection) (conn : Nat) :
    (q.releaseConn conn).1 = ((q.connLeases conn).map Prod.fst).foldl dropLease q :=
  (List.foldl_map ..).symm

@[simp] theorem sweepExpired_deliveries (q : QueueProjection) (now : Int) :
    (q.sweepExpired now).deliveries = q.deliveries :=
  (foldl_dropLease_fields _ _).1.trans (sweepDelayed_fields now q.delayed q).2.1

@[simp] theorem sweepExpired_nextLeaseId (q : QueueProjection) (now : Int) :
    (q.sweepExpired now).nextLeaseId = q.nextLeaseId :=
  (foldl_dropLease_fields _ _).2.1.trans (sweepDelayed_fields now q.delayed q).2.2

variable {q : QueueProjection} {now : Int} {s : Nat}

theorem mem_expired_iff :
    s ∈ q.expired now ↔ ∃ l, q.leases[s]? = some l ∧ l.deadlineMs < now := by
  unfold expired
  simp only [List.mem_map, List.mem_filter, Prod.exists, exists_and_right, exists_eq_right,
    decide_eq_true_eq]
  refine exists_congr fun l => and_congr_left fun _ => ?_
  exact Std.TreeMap.mem_toList_iff_getElem?_eq_some

/-- **The sweep drops the leases that have run out**, and no other. -/
theorem getElem?_leases_sweepExpired (q : QueueProjection) (now : Int) (s : Nat) :
    (q.sweepExpired now).leases[s]? = q.leases[s]?.filter fun l => decide (now ≤ l.deadlineMs) := by
  have hswept := (sweepDelayed_fields now q.delayed q).1
  have hget : (q.sweepExpired now).leases[s]? =
      if s ∈ (sweepDelayed now q.delayed q).expired now then none
      else (sweepDelayed now q.delayed q).leases[s]? := (foldl_dropLease_fields _ _).2.2 s
  rw [hget]
  simp only [mem_expired_iff, hswept]
  cases hl : q.leases[s]? with
  | none => simp
  | some l =>
    by_cases hd : l.deadlineMs < now
    · simp [hd, Option.filter_some]
    · simp [hd, not_lt.mp hd, Option.filter_some]

theorem leases_of_sweepExpired {l : Lease} (h : (q.sweepExpired now).leases[s]? = some l) :
    q.leases[s]? = some l := by
  rw [getElem?_leases_sweepExpired] at h
  exact (Option.filter_eq_some_iff.mp h).1

theorem nextClaimable_eq {q q' : QueueProjection} {ix : TopicIndex} {head : Nat} {x : Option Nat}
    (h : q.nextClaimable ix head = (x, q')) :
    ∃ reclaim claimCursor, q' = { q with reclaim := reclaim, claimCursor := claimCursor } := by
  unfold nextClaimable at h
  rcases claimReclaimed_cases ix q.reclaim q with ⟨heq, -⟩ | ⟨_, y, rest, -, -, -, heq⟩
  · rw [heq] at h
    simp only at h
    rcases claimFresh_cases ix (head + 1 - q.claimCursor) { q with reclaim := [] } with
      ⟨heq', -⟩ | ⟨y, -, -, -, -, heq'⟩
    all_goals
      rw [heq'] at h
      cases h
      exact ⟨_, _, rfl⟩
  · rw [heq] at h
    cases h
    exact ⟨_, q.claimCursor, rfl⟩

end QueueProjection

namespace ClaimPass

variable {ix : TopicIndex} {head : Nat} {claimers : List Claimer} {terms : ClaimTerms}
  {P : ClaimPass → Prop} {st : ClaimPass}

section

variable (hseek : ∀ st rr, P st → P { st with rr := rr })
  (hempty : ∀ st q rr, P st → st.q.nextClaimable ix head = (none, q) →
    P { st with q := q, rr := rr })
  (hdivert : ∀ st q rr seq, P st → st.q.nextClaimable ix head = (some seq, q) →
    0 < terms.maxDeliveries ∧ terms.maxDeliveries < q.deliveries.getD seq 0 + 1 ∧
    terms.deadLetter = true → P (st.divert q rr seq))

include hseek hempty hdivert

theorem claimLoop_induct_demand
    (hlease : ∀ st q rr seq, P st → st.q.nextClaimable ix head = (some seq, q) →
      ¬ (0 < terms.maxDeliveries ∧ terms.maxDeliveries < q.deliveries.getD seq 0 + 1 ∧
      terms.deadLetter = true) → st.remaining.getD rr 0 ≠ 0 →
      P (st.lease claimers terms q rr seq)) (fuel : Nat) (h : P st) :
    P (claimLoop ix head claimers terms fuel st) := by
  induction fuel generalizing st with
  | zero => exact h
  | succ fuel ih =>
    unfold claimLoop
    simp only
    split
    · exact h
    · split
      · exact hseek st _ h
      · rename_i hdemand
        rcases hnext : st.q.nextClaimable ix head with ⟨_ | seq, q⟩
        · exact hempty st q _ h hnext
        · simp only
          split
          · rename_i hdead
            exact ih (hdivert st q _ seq h hnext hdead)
          · rename_i hlive
            exact ih (hlease st q _ seq h hnext hlive hdemand)

theorem claimLoop_induct
    (hlease : ∀ st q rr seq, P st → st.q.nextClaimable ix head = (some seq, q) →
      ¬ (0 < terms.maxDeliveries ∧ terms.maxDeliveries < q.deliveries.getD seq 0 + 1 ∧
      terms.deadLetter = true) → P (st.lease claimers terms q rr seq)) (fuel : Nat) (h : P st) :
    P (claimLoop ix head claimers terms fuel st) :=
  claimLoop_induct_demand hseek hempty hdivert
    (fun st q rr seq hst hnext hlive _ => hlease st q rr seq hst hnext hlive) fuel h

end

end ClaimPass

end Topics
