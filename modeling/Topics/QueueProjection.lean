import Topics.Index

/-!
# The lease projection of a queue

`QueueProjection` (`engine/queue.rs`): the materialized view of a queue topic's leases log.
It says who holds which job, which jobs are waiting on the reclaim freelist or for a delayed
nack, and up to where fresh jobs have been handed out.
-/

namespace Topics

/-- `Lease`: who holds a job, until when. -/
structure Lease where
  node : String
  leaseId : Nat
  deadlineMs : Int
  byWorkConn : Option Nat
  deriving DecidableEq, Repr

/-- `QueueProjection`.  `reclaim` is the min-heap of the source as an ascending list; its
companion set `in_reclaim` always holds the same seqs and is therefore not kept twice.
`delayed` is the other min-heap, ascending by `(ready_at, seq)`. -/
structure QueueProjection where
  leases : Std.TreeMap Nat Lease
  deliveries : Std.TreeMap Nat Nat
  reclaim : List Nat
  delayed : List (Int × Nat)
  claimCursor : Nat
  deadLettered : Nat
  nextLeaseId : Nat

namespace QueueProjection

/-- A fresh projection for a queue whose first job seq is `seqBase`. -/
def new (seqBase : Nat) : QueueProjection where
  leases := ∅
  deliveries := ∅
  reclaim := []
  delayed := []
  claimCursor := seqBase
  deadLettered := 0
  nextLeaseId := 1

/-- `push_reclaim`: idempotent, a seq is never on the freelist twice. -/
def pushReclaim (q : QueueProjection) (seq : Nat) : QueueProjection :=
  if seq ∈ q.reclaim then q
  else { q with reclaim := q.reclaim.orderedInsert (· ≤ ·) seq }

def delayedLe (a b : Int × Nat) : Prop := a.1 < b.1 ∨ a.1 = b.1 ∧ a.2 ≤ b.2

instance : DecidableRel delayedLe := fun a b => by unfold delayedLe; infer_instance

def pushDelayed (q : QueueProjection) (readyAt : Int) (seq : Nat) : QueueProjection :=
  { q with delayed := q.delayed.orderedInsert delayedLe (readyAt, seq) }

/-- First loop of `sweep_expired`: pop the delayed nacks whose time has come, in heap order. -/
def sweepDelayed (now : Int) : List (Int × Nat) → QueueProjection → QueueProjection
  | [], q => { q with delayed := [] }
  | (readyAt, seq) :: rest, q =>
    if readyAt > now then { q with delayed := (readyAt, seq) :: rest }
    else sweepDelayed now rest (if q.leases.contains seq then q else q.pushReclaim seq)

def expired (q : QueueProjection) (now : Int) : List Nat :=
  (q.leases.toList.filter fun (_, l) => now > l.deadlineMs).map Prod.fst

/-- Drop the lease of `seq` and make the job reclaimable. -/
def dropLease (q : QueueProjection) (seq : Nat) : QueueProjection :=
  { q with leases := q.leases.erase seq }.pushReclaim seq

def sweepExpired (q : QueueProjection) (now : Int) : QueueProjection :=
  let q := sweepDelayed now q.delayed q
  (q.expired now).foldl dropLease q

/-- First loop of `next_claimable`: pop the freelist until a live, unleased job is found. -/
def claimReclaimed (ix : TopicIndex) : List Nat → QueueProjection → Option Nat × QueueProjection
  | [], q => (none, { q with reclaim := [] })
  | seq :: rest, q =>
    if q.leases.contains seq then claimReclaimed ix rest q
    else match ix.live seq with
      | some _ => (some seq, { q with reclaim := rest })
      | none => claimReclaimed ix rest q

/-- Second loop of `next_claimable`: advance the cursor over at most `n` seqs. -/
def claimFresh (ix : TopicIndex) : Nat → QueueProjection → Option Nat × QueueProjection
  | 0, q => (none, q)
  | n + 1, q =>
    let seq := q.claimCursor
    let q := { q with claimCursor := seq + 1 }
    if q.leases.contains seq then claimFresh ix n q
    else match ix.live seq with
      | some _ => (some seq, q)
      | none => claimFresh ix n q

/-- `next_claimable`: reclaimed work jumps ahead of never-delivered work.  The cursor loop
runs while the cursor is at most `head`. -/
def nextClaimable (q : QueueProjection) (ix : TopicIndex) (head : Nat) :
    Option Nat × QueueProjection :=
  match claimReclaimed ix q.reclaim q with
  | (some seq, q) => (some seq, q)
  | (none, q) => claimFresh ix (head + 1 - q.claimCursor) q

/-- Whether the lease now held on `seq` is the one the event acted on. -/
def currentLeaseMatches (q : QueueProjection) (seq leaseId : Nat) : Bool :=
  match q.leases[seq]? with
  | some l => l.leaseId == leaseId
  | none => false

/-- `apply_lease_event`: fold one replayed event into the projection.  `Released`,
`Extended` and `Acked` act only on the lease they were issued for. -/
def applyLeaseEvent (q : QueueProjection) (event : LeaseEvent) (seq : Nat) (node : String)
    (leaseId : Nat) (deadlineMs : Int) (deliveries : Nat) : QueueProjection :=
  let q := if leaseId ≥ q.nextLeaseId then { q with nextLeaseId := leaseId + 1 } else q
  match event with
  | .claimed =>
    { q with
      deliveries := q.deliveries.insert seq deliveries
      leases := q.leases.insert seq
        { node := node, leaseId := leaseId, deadlineMs := deadlineMs, byWorkConn := none }
      claimCursor := if seq ≥ q.claimCursor then seq + 1 else q.claimCursor }
  | .released => if q.currentLeaseMatches seq leaseId then q.dropLease seq else q
  | .extended =>
    match q.leases[seq]? with
    | some l =>
      if l.leaseId = leaseId then
        { q with leases := q.leases.insert seq { l with deadlineMs := deadlineMs } }
      else q
    | none => q
  | .acked =>
    if q.currentLeaseMatches seq leaseId then
      { q with leases := q.leases.erase seq, deliveries := q.deliveries.erase seq }
    else q

end QueueProjection

end Topics
