import Topics.QueueProjection
import Mathlib.Data.List.TakeWhile

/-!
# Topic state

`TopicState` (`engine/topic_state.rs`) with its eviction floors (`engine/eviction.rs`): the
record index of one topic, the published head, the durable head reservation, and the
operations that move them.

Segment files are a derived materialization of the index and are not modelled; neither are
the quota gauges, the dedupe table and the recency clocks.
-/

namespace Topics

open TopicIndex List

/-! ## Floors -/

structure Floors where
  evictFloor : Nat := 0
  expiryFloor : Nat := 0
  deleteFloor : Nat := 0
  sourceTrimFloor : Nat := 0
  deriving DecidableEq, Repr

def Floors.top (f : Floors) : Nat :=
  max (max (max f.evictFloor f.expiryFloor) f.deleteFloor) f.sourceTrimFloor

/-- `Floors::earliest_seq`, clamped into `[seqBase, headSeq + 1]`. -/
def Floors.earliestSeq (f : Floors) (seqBase headSeq : Nat) : Nat :=
  min (max (f.top + 1) seqBase) (headSeq + 1)

structure Floors.Le (f g : Floors) : Prop where
  evict : f.evictFloor ≤ g.evictFloor
  expiry : f.expiryFloor ≤ g.expiryFloor
  delete : f.deleteFloor ≤ g.deleteFloor
  sourceTrim : f.sourceTrimFloor ≤ g.sourceTrimFloor

theorem Floors.Le.refl (f : Floors) : f.Le f :=
  ⟨le_rfl, le_rfl, le_rfl, le_rfl⟩

theorem Floors.Le.trans {f g h : Floors} (h₁ : f.Le g) (h₂ : g.Le h) : f.Le h :=
  ⟨h₁.evict.trans h₂.evict, h₁.expiry.trans h₂.expiry, h₁.delete.trans h₂.delete,
    h₁.sourceTrim.trans h₂.sourceTrim⟩

theorem Floors.Le.top {f g : Floors} (h : f.Le g) : f.top ≤ g.top := by
  have := h.evict
  have := h.expiry
  have := h.delete
  have := h.sourceTrim
  unfold Floors.top
  omega

theorem Floors.earliestSeq_le_of_top_lt {f : Floors} {seqBase s : Nat}
    (hs : seqBase ≤ s) (ht : f.top < s) (head : Nat) : f.earliestSeq seqBase head ≤ s := by
  unfold Floors.earliestSeq
  omega

/-! ## The state and its append path -/

/-- `SEQ_BASE`: the first seq of a topic. -/
def seqBaseDefault : Nat := 1

structure TopicState where
  name : String
  topicId : Nat
  config : TopicConfig
  index : TopicIndex
  floors : Floors
  headSeq : Nat
  reservedHead : Nat
  seqBase : Nat
  bytesRetained : Nat
  liveCount : Nat
  queue : Option QueueProjection

/-- `StagedAppend`: a batch pushed into the index and not yet published. -/
structure StagedAppend where
  start : Nat
  count : Nat
  addedBytes : Nat
  preLen : Nat
  deriving DecidableEq, Repr

namespace StagedAppend

def seqs (g : StagedAppend) : List Nat := List.range' g.start g.count

def publishHead (g : StagedAppend) : Nat := g.start + g.count - 1

end StagedAppend

namespace TopicState

def new (name : String) (topicId : Nat) (config : TopicConfig) (seqBase : Nat) :
    TopicState where
  name := name
  topicId := topicId
  config := config
  index := TopicIndex.new seqBase
  floors := {}
  headSeq := seqBase - 1
  reservedHead := seqBase - 1
  seqBase := seqBase
  bytesRetained := 0
  liveCount := 0
  queue := if config.isQueue then some (QueueProjection.new seqBase) else none

/-- `stage_append`: seqs are assigned from the deque tail, not from the head.  The empty
batch needs no case of its own: with a count of zero every later step ignores it. -/
def stageAppend (b : TopicState) (records : List StoredRecord) : TopicState × StagedAppend :=
  ({ b with index := b.index.pushAll records },
    { start := b.index.tail
      count := records.length
      addedBytes := (records.map (·.bytes)).sum
      preLen := b.index.records.length })

def publishStagedNoSeal (b : TopicState) (g : StagedAppend) : TopicState :=
  if g.count = 0 then b
  else
    { b with
      headSeq := g.publishHead
      bytesRetained := b.bytesRetained + g.addedBytes
      liveCount := b.liveCount + g.count }

/-- `append`: stage and publish in one shot. -/
def append (b : TopicState) (records : List StoredRecord) : TopicState :=
  (b.stageAppend records).1.publishStagedNoSeal (b.stageAppend records).2

/-- `rollback_staged`: truncate the tail to the length before the stage. -/
def rollbackStaged (b : TopicState) (g : StagedAppend) : TopicState :=
  if g.count = 0 then b else { b with index := b.index.truncate g.preLen }

/-- Mark every seq of `seqs` deleted, summing what was freed: bytes and records. -/
def markAll (ix : TopicIndex) (seqs : List Nat) : TopicIndex × Nat × Nat :=
  seqs.foldl
    (fun (ix, freed, deleted) seq =>
      match ix.markDeleted seq with
      | (ix, some f) => (ix, freed + f, deleted + 1)
      | (ix, none) => (ix, freed, deleted))
    (ix, 0, 0)

/-- `rollback_staged_by_seqs`: a failed batch leaves holes in place. -/
def rollbackStagedBySeqs (b : TopicState) (g : StagedAppend) : TopicState :=
  { b with index := (markAll b.index g.seqs).1 }

/-! ## Head reservation -/

def setReservedHead (b : TopicState) (reserved : Nat) : TopicState :=
  { b with reservedHead := max b.reservedHead reserved }

/-- `restore_head_watermark`: if the reservation lies beyond the replayed head, pad the index
with holes up to it and move the head there. -/
def restoreHeadWatermark (b : TopicState) (reserved : Nat) : TopicState :=
  let b := b.setReservedHead reserved
  if reserved ≤ b.headSeq then b
  else
    { b with
      index := b.index.pushAll (List.replicate (reserved + 1 - b.index.tail) deletedHole)
      headSeq := reserved }

/-- `note_source_trim`: one published hole, below the source-trim floor. -/
def noteSourceTrim (b : TopicState) : TopicState :=
  let (b, g) := b.stageAppend [deletedHole]
  { b with
    headSeq := g.start
    floors := { b.floors with sourceTrimFloor := max b.floors.sourceTrimFloor g.start } }

def earliestSeq (b : TopicState) : Nat :=
  min (max (b.floors.earliestSeq b.seqBase b.headSeq) b.index.baseSeq) (b.headSeq + 1)

/-! ## Retention -/

/-- `RetentionAdvance`: the floors a retention pass wants, and whether a cause that a restart
could not re-derive drove it. -/
structure RetentionAdvance where
  floorAdvanced : Bool
  durableAdvance : Bool
  evictFloor : Nat
  expiryFloor : Nat
  deriving DecidableEq, Repr

/-- The TTL loop: `expired_upto` follows the expired prefix of the deque. -/
def ttlScan (now ttl : Int) : Nat → Nat → List StoredRecord → Nat
  | _, expiredUpto, [] => expiredUpto
  | seq, expiredUpto, r :: rs =>
    if i64SaturatingSub now r.ts > ttl then ttlScan now ttl (seq + 1) seq rs else expiredUpto

/-- The byte-cap loop: evict from the first seq above `currentFloor` until the excess is gone. -/
def byteScan (currentFloor : Nat) : Nat → Nat → Nat → List StoredRecord → Nat
  | _, _, evictTo, [] => evictTo
  | seq, excess, evictTo, r :: rs =>
    if seq ≤ currentFloor then byteScan currentFloor (seq + 1) excess evictTo rs
    else if excess = 0 then evictTo
    else byteScan currentFloor (seq + 1) (excess - r.bytes) seq rs

/-- The early returns of `enforce_retention_hardened`. -/
def retentionIdle (b : TopicState) : Bool :=
  b.headSeq == 0 ||
    (b.config.ttlMs == 0 && b.config.capRecords == 0 && b.config.capBytes == 0)

/-- The plan of `enforce_retention_hardened`: TTL, then record cap, then byte cap. -/
def planRetention (b : TopicState) (now : Int) : RetentionAdvance :=
  let expiredUpto :=
    if b.config.ttlMs > 0 then
      ttlScan now (asI64 b.config.ttlMs) b.index.baseSeq b.floors.expiryFloor b.index.records
    else b.floors.expiryFloor
  let ttlAdvance := decide (expiredUpto > b.floors.expiryFloor)
  let expiryFloor := max b.floors.expiryFloor expiredUpto
  let wantFloor := b.headSeq - b.config.capRecords
  let capAdvance := decide (b.config.capRecords > 0 ∧ b.headSeq > b.config.capRecords ∧
    wantFloor > b.floors.evictFloor)
  let evictFloor := if capAdvance then wantFloor else b.floors.evictFloor
  let evictTo :=
    if b.config.capBytes > 0 ∧ b.bytesRetained > b.config.capBytes then
      byteScan (max evictFloor expiryFloor) b.index.baseSeq
        (b.bytesRetained - b.config.capBytes) evictFloor b.index.records
    else evictFloor
  let bytesAdvance := decide (evictTo > evictFloor)
  { floorAdvanced := ttlAdvance || capAdvance || bytesAdvance
    durableAdvance := ttlAdvance || bytesAdvance
    evictFloor := max evictFloor evictTo
    expiryFloor := expiryFloor }

/-- The commit of a plan: floors only ever rise. -/
def commitFloors (b : TopicState) (p : RetentionAdvance) : TopicState :=
  if p.floorAdvanced then
    { b with
      floors := { b.floors with
        evictFloor := max b.floors.evictFloor p.evictFloor
        expiryFloor := max b.floors.expiryFloor p.expiryFloor } }
  else b

/-- How many slots `reclaim_front` pops: those below the logical floor, then the run of
already deleted ones behind them. -/
def reclaimCount (b : TopicState) (head : Nat) : Nat :=
  let n := min (b.floors.earliestSeq b.seqBase head - b.index.baseSeq) b.index.records.length
  n + ((b.index.records.drop n).takeWhile (·.deleted)).length

def reclaimFront (b : TopicState) (head : Nat) : TopicState :=
  let n := b.reclaimCount head
  let freed := ((b.index.records.take n).map (·.bytes)).sum
  let (ix, livePopped) := b.index.drainFront n
  { b with
    index := ix
    bytesRetained := b.bytesRetained - freed
    liveCount := b.liveCount - livePopped }

/-- `enforce_retention`, which commits its plan without a watermark. -/
def enforceRetention (b : TopicState) (now : Int) : TopicState :=
  if b.retentionIdle then b
  else (b.commitFloors (b.planRetention now)).reclaimFront b.headSeq

/-! ## Deletes -/

/-- The live slots of `[lo, bound)`. -/
def liveSeqsBelow (ix : TopicIndex) (lo bound : Nat) : List Nat :=
  (List.range' lo (bound - lo)).filter fun s => (ix.live s).isSome

/-- The seqs `apply_delete_stats` selects, once retention has run. -/
def deleteVictims (b : TopicState) (bound : Nat) : Option Filter → List Nat
  | some f => b.index.matchingLiveSeqs f bound
  | none => liveSeqsBelow b.index (max b.earliestSeq b.index.baseSeq) bound

/-- The point-in-time bound of a selector delete. -/
def deleteBound (beforeSeq : Option Nat) (pit : Nat) : Nat :=
  match beforeSeq with
  | some s => min s pit
  | none => pit

theorem deleteBound_le (beforeSeq : Option Nat) (pit : Nat) : deleteBound beforeSeq pit ≤ pit := by
  cases beforeSeq with
  | none => exact le_rfl
  | some s => exact min_le_right _ _

/-- The body of `apply_delete_stats` between its retention pass and its front reclaim: mark
the selected slots, then raise the delete watermark. -/
def deleteSelected (b : TopicState) (beforeSeq : Option Nat) (match_ : Option Filter)
    (boundHead : Option Nat) : TopicState :=
  let pit := boundHead.getD (b.headSeq + 1)
  let marked := markAll b.index (b.deleteVictims (deleteBound beforeSeq pit) match_)
  -- only a delete without a tag match removed a whole prefix
  let deleteBelow := match match_, beforeSeq with
    | none, some s => max marked.1.deleteBelow (min s pit)
    | _, _ => marked.1.deleteBelow
  { b with
    index := { marked.1 with deleteBelow := deleteBelow }
    bytesRetained := b.bytesRetained - marked.2.1
    liveCount := b.liveCount - marked.2.2
    floors := { b.floors with
      deleteFloor := max b.floors.deleteFloor (deleteBelow - 1) } }

/-- `apply_delete_stats`: a silent point-in-time delete by prefix and/or tag match. -/
def applyDelete (b : TopicState) (beforeSeq : Option Nat) (match_ : Option Filter)
    (boundHead : Option Nat) (now : Int) : TopicState :=
  let b := b.enforceRetention now
  (b.deleteSelected beforeSeq match_ boundHead).reclaimFront b.headSeq

/-- Mark explicit seqs deleted and account for them. -/
def markSeqs (b : TopicState) (seqs : List Nat) : TopicState :=
  let marked := markAll b.index seqs
  { b with
    index := marked.1
    bytesRetained := b.bytesRetained - marked.2.1
    liveCount := b.liveCount - marked.2.2 }

/-- `delete_seqs_stats`: the queue ack path, no retention pass and no floor. -/
def deleteSeqs (b : TopicState) (seqs : List Nat) : TopicState :=
  (b.markSeqs seqs).reclaimFront b.headSeq

/-! ## What each operation does to the index

The tail is the seq the next append receives; only staging, truncation and padding move it.
Deletes and retention are described by the live slots they leave. -/

theorem markAll_fst (seqs : List Nat) (ix : TopicIndex) :
    (markAll ix seqs).1 = seqs.foldl (fun ix s => (ix.markDeleted s).1) ix := by
  -- the two counters never feed back into the index
  refine (foldl_hom Prod.fst fun x s => ?_).symm
  obtain ⟨ix, f, d⟩ := x
  simp only
  rcases ix.markDeleted s with ⟨ix', _ | g⟩ <;> rfl

theorem markAll_induct {P : TopicIndex → Prop} {ix : TopicIndex} (seqs : List Nat)
    (h0 : P ix) (hstep : ∀ ix s, P ix → P (ix.markDeleted s).1) : P (markAll ix seqs).1 := by
  rw [markAll_fst]
  induction seqs generalizing ix with
  | nil => exact h0
  | cons s seqs ih => exact ih (hstep ix s h0)

@[simp] theorem tail_markAll (ix : TopicIndex) (seqs : List Nat) :
    (markAll ix seqs).1.tail = ix.tail :=
  markAll_induct (P := fun ix' => ix'.tail = ix.tail) seqs rfl fun ix' s h => by simp [h]

@[simp] theorem markAll_baseSeq (ix : TopicIndex) (seqs : List Nat) :
    (markAll ix seqs).1.baseSeq = ix.baseSeq :=
  markAll_induct (P := fun ix' => ix'.baseSeq = ix.baseSeq) seqs rfl fun ix' s h => by simp [h]

@[simp] theorem markAll_deleteBelow (ix : TopicIndex) (seqs : List Nat) :
    (markAll ix seqs).1.deleteBelow = ix.deleteBelow :=
  markAll_induct (P := fun ix' => ix'.deleteBelow = ix.deleteBelow) seqs rfl
    fun ix' s h => by simp [h]

theorem live_markAll (ix : TopicIndex) (seqs : List Nat) (s : Nat) :
    (markAll ix seqs).1.live s = if s ∈ seqs then none else ix.live s := by
  rw [markAll_fst]
  induction seqs generalizing ix with
  | nil => simp
  | cons t seqs ih =>
    rw [foldl_cons, ih, live_markDeleted]
    by_cases hs : s ∈ seqs
    · simp [hs]
    · by_cases ht : s = t <;> simp [hs, ht]

variable {b : TopicState} {now : Int} {s : Nat}

theorem deleted_of_reclaimed {head s : Nat} {r : StoredRecord}
    (hge : b.floors.earliestSeq b.seqBase head ≤ s)
    (hlt : s < b.index.baseSeq + b.reclaimCount head) (hg : b.index.get s = some r) :
    r.deleted = true := by
  have hb := base_le_of_get hg
  unfold TopicIndex.get at hg
  rw [if_neg (by omega)] at hg
  unfold reclaimCount at hlt
  simp only at hlt
  generalize hn : min (b.floors.earliestSeq b.seqBase head - b.index.baseSeq)
    b.index.records.length = n at hlt
  have hns : n ≤ s - b.index.baseSeq := by omega
  have hj : s - b.index.baseSeq - n
      < ((b.index.records.drop n).takeWhile (·.deleted)).length := by omega
  have hpre := takeWhile_prefix (fun r : StoredRecord => r.deleted)
    (l := b.index.records.drop n)
  have hget : (b.index.records.drop n)[s - b.index.baseSeq - n]? = some r := by
    rw [getElem?_drop, ← hg]
    congr 1
    omega
  have hmem : r ∈ (b.index.records.drop n).takeWhile (·.deleted) := by
    have := hpre.getElem hj
    rw [getElem?_eq_getElem (hj.trans_le hpre.length_le)] at hget
    rw [← Option.some.inj hget, ← this]
    exact getElem_mem hj
  exact mem_takeWhile_imp hmem

theorem reclaimCount_le_length (b : TopicState) (head : Nat) :
    b.reclaimCount head ≤ b.index.records.length := by
  unfold reclaimCount
  simp only
  have := ( takeWhile_prefix (fun r : StoredRecord => r.deleted)
    (l := b.index.records.drop (min (b.floors.earliestSeq b.seqBase head - b.index.baseSeq)
      b.index.records.length))).length_le
  rw [length_drop] at this
  omega

theorem reclaimFront_records (b : TopicState) (head : Nat) :
    (b.reclaimFront head).index.records = b.index.records.drop (b.reclaimCount head) := by
  change b.index.records.drop (min _ _) = _
  rw [min_eq_left (reclaimCount_le_length b head)]

theorem reclaimFront_baseSeq (b : TopicState) (head : Nat) :
    (b.reclaimFront head).index.baseSeq = b.index.baseSeq + b.reclaimCount head := by
  change b.index.baseSeq + min _ _ = _
  rw [min_eq_left (reclaimCount_le_length b head)]

theorem live_reclaimFront (b : TopicState) (head s : Nat) :
    (b.reclaimFront head).index.live s =
      if s < b.floors.earliestSeq b.seqBase head then none else b.index.live s := by
  have hix : (b.reclaimFront head).index = (b.index.drainFront (b.reclaimCount head)).1 := rfl
  rw [hix]
  unfold live
  rw [get_drainFront]
  rw [min_eq_left (reclaimCount_le_length b head)]
  by_cases hs : s < b.floors.earliestSeq b.seqBase head
  · rw [if_pos hs]
    by_cases hd : s < b.index.baseSeq + b.reclaimCount head
    · rw [if_pos hd]
      rfl
    · have hr : b.index.records.length ≤ b.reclaimCount head := by
        unfold reclaimCount at hd ⊢
        simp only at hd ⊢
        omega
      rw [if_neg hd, get_eq_none_of_tail_le (by unfold TopicIndex.tail; omega)]
      rfl
  · rw [if_neg hs]
    by_cases hd : s < b.index.baseSeq + b.reclaimCount head
    · rw [if_pos hd]
      cases hg : b.index.get s with
      | none => rfl
      | some r =>
        have hdel : r.deleted = true := deleted_of_reclaimed (not_lt.mp hs) hd hg
        simp [Option.filter, hdel]
    · rw [if_neg hd]

@[simp] theorem tail_reclaimFront (b : TopicState) (head : Nat) :
    (b.reclaimFront head).index.tail = b.index.tail :=
  tail_drainFront b.index (b.reclaimCount head)

/-! ### What publishing and truncating leave alone -/

@[simp] theorem rollbackStaged_headSeq (b : TopicState) (g : StagedAppend) :
    (b.rollbackStaged g).headSeq = b.headSeq := by
  unfold rollbackStaged
  split <;> rfl

@[simp] theorem rollbackStaged_reservedHead (b : TopicState) (g : StagedAppend) :
    (b.rollbackStaged g).reservedHead = b.reservedHead := by
  unfold rollbackStaged
  split <;> rfl

@[simp] theorem publishStagedNoSeal_reservedHead (b : TopicState) (g : StagedAppend) :
    (b.publishStagedNoSeal g).reservedHead = b.reservedHead := by
  unfold publishStagedNoSeal
  split <;> rfl

@[simp] theorem publishStagedNoSeal_index (b : TopicState) (g : StagedAppend) :
    (b.publishStagedNoSeal g).index = b.index := by
  unfold publishStagedNoSeal
  split <;> rfl

/-! ### What removals leave alone -/

/-- What retention and deletes leave alone: everything but the slots they remove, the
floors and the two counters.  The front of the deque only moves forward.  In particular the
next seq to be assigned stays the same. -/
structure Steady (b b' : TopicState) : Prop where
  name : b'.name = b.name
  topicId : b'.topicId = b.topicId
  config : b'.config = b.config
  headSeq : b'.headSeq = b.headSeq
  reservedHead : b'.reservedHead = b.reservedHead
  seqBase : b'.seqBase = b.seqBase
  queue : b'.queue = b.queue
  base : b.index.baseSeq ≤ b'.index.baseSeq
  tail : b'.index.tail = b.index.tail

namespace Steady

protected theorem refl (b : TopicState) : Steady b b :=
  ⟨rfl, rfl, rfl, rfl, rfl, rfl, rfl, le_rfl, rfl⟩

protected theorem trans {b₁ b₂ b₃ : TopicState} (h : Steady b₁ b₂) (h' : Steady b₂ b₃) :
    Steady b₁ b₃ where
  name := h'.name.trans h.name
  topicId := h'.topicId.trans h.topicId
  config := h'.config.trans h.config
  headSeq := h'.headSeq.trans h.headSeq
  reservedHead := h'.reservedHead.trans h.reservedHead
  seqBase := h'.seqBase.trans h.seqBase
  queue := h'.queue.trans h.queue
  base := h.base.trans h'.base
  tail := h'.tail.trans h.tail

end Steady

theorem steady_reclaimFront (b : TopicState) (head : Nat) : Steady b (b.reclaimFront head) :=
  ⟨rfl, rfl, rfl, rfl, rfl, rfl, rfl, Nat.le_add_right _ _, tail_reclaimFront b head⟩

@[simp] theorem reclaimFront_floors (b : TopicState) (head : Nat) :
    (b.reclaimFront head).floors = b.floors := rfl

@[simp] theorem commitFloors_index (b : TopicState) (p : RetentionAdvance) :
    (b.commitFloors p).index = b.index := by
  unfold commitFloors
  split <;> rfl

theorem steady_commitFloors (b : TopicState) (p : RetentionAdvance) :
    Steady b (b.commitFloors p) := by
  unfold commitFloors
  split
  · exact ⟨rfl, rfl, rfl, rfl, rfl, rfl, rfl, le_rfl, rfl⟩
  · exact Steady.refl b

theorem steady_enforceRetention (b : TopicState) (now : Int) :
    Steady b (b.enforceRetention now) := by
  unfold enforceRetention
  split
  · exact Steady.refl b
  · exact (steady_commitFloors b _).trans (steady_reclaimFront _ _)

theorem steady_rollbackStagedBySeqs (b : TopicState) (g : StagedAppend) :
    Steady b (b.rollbackStagedBySeqs g) :=
  ⟨rfl, rfl, rfl, rfl, rfl, rfl, rfl, (markAll_baseSeq b.index g.seqs).ge,
    tail_markAll b.index g.seqs⟩

theorem steady_markSeqs (b : TopicState) (seqs : List Nat) : Steady b (b.markSeqs seqs) :=
  ⟨rfl, rfl, rfl, rfl, rfl, rfl, rfl, (markAll_baseSeq b.index seqs).ge,
    tail_markAll b.index seqs⟩

theorem steady_deleteSeqs (b : TopicState) (seqs : List Nat) : Steady b (b.deleteSeqs seqs) :=
  (steady_markSeqs b seqs).trans (steady_reclaimFront _ _)

theorem steady_deleteSelected (b : TopicState) (beforeSeq : Option Nat)
    (match_ : Option Filter) (boundHead : Option Nat) :
    Steady b (b.deleteSelected beforeSeq match_ boundHead) :=
  ⟨rfl, rfl, rfl, rfl, rfl, rfl, rfl, (markAll_baseSeq b.index _).ge, tail_markAll b.index _⟩

theorem steady_applyDelete (b : TopicState) (beforeSeq : Option Nat) (match_ : Option Filter)
    (boundHead : Option Nat) (now : Int) :
    Steady b (b.applyDelete beforeSeq match_ boundHead now) :=
  (steady_enforceRetention b now).trans
    ((steady_deleteSelected _ beforeSeq match_ boundHead).trans (steady_reclaimFront _ _))

/-! ### Floors only rise -/

theorem floors_le_commitFloors (b : TopicState) (p : RetentionAdvance) :
    b.floors.Le (b.commitFloors p).floors := by
  unfold commitFloors
  split
  · exact ⟨le_max_left _ _, le_max_left _ _, le_rfl, le_rfl⟩
  · exact Floors.Le.refl _

theorem floors_le_enforceRetention (b : TopicState) (now : Int) :
    b.floors.Le (b.enforceRetention now).floors := by
  unfold enforceRetention
  split
  · exact Floors.Le.refl _
  · rw [reclaimFront_floors]
    exact floors_le_commitFloors b (b.planRetention now)

theorem floors_le_deleteSelected (b : TopicState) (beforeSeq : Option Nat)
    (match_ : Option Filter) (boundHead : Option Nat) :
    b.floors.Le (b.deleteSelected beforeSeq match_ boundHead).floors :=
  ⟨le_rfl, le_rfl, le_max_left _ _, le_rfl⟩

theorem floors_le_applyDelete (b : TopicState) (beforeSeq : Option Nat)
    (match_ : Option Filter) (boundHead : Option Nat) (now : Int) :
    b.floors.Le (b.applyDelete beforeSeq match_ boundHead now).floors :=
  (floors_le_enforceRetention b now).trans
    (floors_le_deleteSelected _ beforeSeq match_ boundHead)

/-! ### What stays live

Above the floors retention removes nothing, and a delete removes only the slots it selects. -/

theorem live_enforceRetention_of_top_lt (hs : b.seqBase ≤ s)
    (ht : (b.enforceRetention now).floors.top < s) :
    (b.enforceRetention now).index.live s = b.index.live s := by
  unfold enforceRetention at ht ⊢
  split
  · rfl
  · rename_i hidle
    rw [if_neg hidle, reclaimFront_floors] at ht
    rw [live_reclaimFront, commitFloors_index, (steady_commitFloors b _).seqBase, if_neg]
    have := Floors.earliestSeq_le_of_top_lt hs ht b.headSeq
    omega

theorem live_deleteSeqs_of_top_lt {seqs : List Nat} (hs : b.seqBase ≤ s) (ht : b.floors.top < s)
    (hmem : s ∉ seqs) :
    (b.deleteSeqs seqs).index.live s = b.index.live s := by
  have hge := Floors.earliestSeq_le_of_top_lt hs ht b.headSeq
  have hmark : (b.markSeqs seqs).index.live s = b.index.live s :=
    (live_markAll b.index seqs s).trans (if_neg hmem)
  unfold deleteSeqs
  rw [live_reclaimFront, if_neg, hmark]
  exact hge.not_gt

theorem live_deleteSelected (b : TopicState) (beforeSeq : Option Nat)
    (match_ : Option Filter) (boundHead : Option Nat) (s : Nat) :
    (b.deleteSelected beforeSeq match_ boundHead).index.live s =
      if s ∈ b.deleteVictims (deleteBound beforeSeq (boundHead.getD (b.headSeq + 1))) match_
      then none else b.index.live s :=
  live_markAll b.index _ s

theorem live_applyDelete_of_top_lt {beforeSeq : Option Nat} {match_ : Option Filter}
    {boundHead : Option Nat} (hs : b.seqBase ≤ s)
    (ht : (b.applyDelete beforeSeq match_ boundHead now).floors.top < s)
    (hmem : s ∉ (b.enforceRetention now).deleteVictims
      (deleteBound beforeSeq (boundHead.getD (b.headSeq + 1))) match_) :
    (b.applyDelete beforeSeq match_ boundHead now).index.live s = b.index.live s := by
  have hst := steady_enforceRetention b now
  have hsel := steady_deleteSelected (b.enforceRetention now) beforeSeq match_ boundHead
  -- the retention pass inside the delete stays below the final floors as well
  have htop := (floors_le_deleteSelected (b.enforceRetention now) beforeSeq match_
    boundHead).top
  have hlive := live_enforceRetention_of_top_lt hs (htop.trans_lt ht)
  unfold applyDelete at ht ⊢
  simp only [reclaimFront_floors] at ht ⊢
  have hge := Floors.earliestSeq_le_of_top_lt hs ht (b.enforceRetention now).headSeq
  rw [live_reclaimFront, hsel.seqBase, hst.seqBase, if_neg hge.not_gt,
    live_deleteSelected, hst.headSeq, if_neg hmem, hlive]

end TopicState

end Topics
