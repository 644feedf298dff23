import Topics.SnapshotTopic

/-!
# Reading a topic

`Engine::diff` (`engine/mod.rs`) behind its retention pass: the tombstone decision, the walk
over the index with the read filters of `engine/filters.rs`, and the response.
-/

namespace Topics

/-! ## Filters -/

inductive NodeFilter where
  | one (node : String)
  | many (nodes : List String)
  deriving DecidableEq, Repr

/-- `NodeFilter::matches`. -/
def NodeFilter.accepts : NodeFilter → String → Bool
  | .one n, node => n == node
  | .many ns, node => ns.any (· == node)

inductive ReadDecision where
  | deliver
  | deleted
  | nodeFiltered
  | expired
  deriving DecidableEq, Repr

/-- The TTL gate: `ttl_ms > 0 && now - ts > ttl_ms`, in the machine arithmetic of the source. -/
def ttlExpired (ttlMs : Nat) (now ts : Int) : Bool :=
  decide (ttlMs > 0 ∧ i64SaturatingSub now ts > asI64 ttlMs)

def evaluate (nodeFilter : Option NodeFilter) (ttlMs : Nat) (now recordTs : Int)
    (deleted : Bool) (recordNode : Option String) : ReadDecision :=
  if ttlExpired ttlMs now recordTs then .expired
  else if deleted then .deleted
  else
    match nodeFilter, recordNode with
    | some filter, some node => if filter.accepts node then .nodeFiltered else .deliver
    | _, _ => .deliver

theorem deleted_eq_false_of_evaluate {nodeFilter : Option NodeFilter} {ttlMs : Nat}
    {now recordTs : Int} {deleted : Bool} {recordNode : Option String}
    (h : evaluate nodeFilter ttlMs now recordTs deleted recordNode = .deliver) :
    deleted = false := by
  unfold evaluate at h
  split at h
  · cases h
  · cases deleted with
    | false => rfl
    | true => cases h

/-! ## Tombstones -/

inductive TombstoneReason where
  | cap
  | ttl
  | mixed
  | recreated
  | sourceTrim
  | fromSeqTooOld
  deriving DecidableEq, Repr

structure Tombstone where
  gapFrom : Nat
  gapTo : Nat
  reason : TombstoneReason
  missedEstimate : Nat
  earliestSeq : Nat
  headSeq : Nat
  deriving DecidableEq, Repr

def buildTombstone (fromSeq earliestSeq headSeq : Nat) (reason : TombstoneReason) :
    Tombstone where
  gapFrom := fromSeq + 1
  gapTo := earliestSeq - 1
  reason := reason
  missedEstimate := earliestSeq - 1 - (fromSeq + 1) + 1
  earliestSeq := earliestSeq
  headSeq := headSeq

namespace Floors

/-- The highest of the involuntary floors; `delete_floor` is voluntary. -/
def involuntary (f : Floors) : Nat :=
  max (max f.evictFloor f.expiryFloor) f.sourceTrimFloor

def evictEarliest (f : Floors) (seqBase headSeq : Nat) : Nat :=
  min (max (f.involuntary + 1) seqBase) (headSeq + 1)

def reasonForGap (f : Floors) (gapFrom : Nat) : TombstoneReason :=
  let cap := decide (f.evictFloor ≥ gapFrom ∧ f.evictFloor > 0)
  let ttl := decide (f.expiryFloor ≥ gapFrom ∧ f.expiryFloor > 0)
  let srcTrim := decide (f.sourceTrimFloor ≥ gapFrom ∧ f.sourceTrimFloor > 0)
  match cap, ttl with
  | true, true => .mixed
  | false, true => .ttl
  | true, false => .cap
  | false, false => if srcTrim then .sourceTrim else .cap

theorem involuntary_le_top (f : Floors) : f.involuntary ≤ f.top := by
  unfold involuntary top
  omega

theorem evictEarliest_le_earliestSeq (f : Floors) (seqBase headSeq : Nat) :
    f.evictEarliest seqBase headSeq ≤ f.earliestSeq seqBase headSeq := by
  have := f.involuntary_le_top
  unfold evictEarliest earliestSeq
  omega

end Floors

namespace TopicState

/-- `evict_earliest_seq`: the first seq above the involuntary floor. -/
def evictEarliestSeq (b : TopicState) : Nat := b.floors.evictEarliest b.seqBase b.headSeq

theorem evictEarliestSeq_le_earliestSeq (b : TopicState) : b.evictEarliestSeq ≤ b.earliestSeq := by
  have := b.floors.evictEarliest_le_earliestSeq b.seqBase b.headSeq
  have : b.floors.evictEarliest b.seqBase b.headSeq ≤ b.headSeq + 1 := min_le_right _ _
  unfold evictEarliestSeq earliestSeq
  omega

end TopicState

/-! ## One page -/

/-- `config::DEFAULT_LIMIT`. -/
def defaultLimit : Nat := 256

/-- `config::MAX_LIMIT`. -/
def maxLimit : Nat := 1000

/-- `config::DEFAULT_MAX_BATCH_BYTES`. -/
def defaultMaxBatchBytes : Nat := 2 ^ 20

/-- `config::MAX_BATCH_BYTES`. -/
def maxBatchBytes : Nat := 8 * 2 ^ 20

/-- `types::DiffRequest`; the long-poll wait happens outside the engine. -/
structure DiffRequest where
  fromSeq : Nat := 0
  limit : Nat := 0
  node : Option NodeFilter := none
  includeTags : Bool := false
  includeMeta : Bool := true
  maxBatchBytes : Nat := 0
  deriving DecidableEq, Repr

namespace DiffRequest

/-- The clamped record limit: `0` means the default. -/
def effectiveLimit (req : DiffRequest) : Nat :=
  if req.limit = 0 then defaultLimit else min req.limit maxLimit

/-- The clamped byte budget: `0` means the default. -/
def effectiveBytes (req : DiffRequest) : Nat :=
  if req.maxBatchBytes = 0 then defaultMaxBatchBytes else min req.maxBatchBytes Topics.maxBatchBytes

end DiffRequest

structure RecordOut where
  seq : Nat
  ts : Int
  node : Option String
  tag : Option String
  data : Value
  «meta» : Option Value

/-- `types::DiffResponse`, without the topic name and the timings. -/
structure DiffResponse where
  records : List RecordOut
  nextFromSeq : Nat
  headSeq : Nat
  earliestSeq : Nat
  caughtUp : Bool
  tombstone : Option Tombstone
  lag : Nat
  recordsScanned : Nat

structure DiffWalk where
  records : List RecordOut
  scanned : Nat
  nextFromSeq : Nat
  batchBytes : Nat

namespace TopicState

section Page

variable (b : TopicState) (resolve : Nat → Value × Option Value) (req : DiffRequest) (now : Int)

/-- The node filter in force: only a topic with `dedupe_node` applies the reader's. -/
def nodeFilter : Option NodeFilter := if b.config.dedupeNode then req.node else none

/-- What the read pipeline decides about a stored record. -/
def decision (r : StoredRecord) : ReadDecision :=
  evaluate (b.nodeFilter req) b.config.ttlMs now r.ts r.deleted r.node

/-- The wire form of the record at `seq`, its payload read back if it was sealed. -/
def recordOut (seq : Nat) (r : StoredRecord) : RecordOut where
  seq := seq
  ts := r.ts
  node := r.node
  tag := if req.includeTags then r.tag else none
  data := (slotPayload resolve seq r).1
  «meta» := if req.includeMeta then (slotPayload resolve seq r).2 else none

/-- The record walk of `diff` over `n` more seqs from `seq`.  A record over the byte budget
stops the walk without moving the cursor, unless it is the first of its page. -/
def diffWalk : Nat → Nat → DiffWalk → DiffWalk
  | 0, _, w => w
  | n + 1, seq, w =>
    if w.records.length < req.effectiveLimit then
      match b.index.get seq with
      | none => diffWalk n (seq + 1) { w with nextFromSeq := seq }
      | some r =>
        if b.decision req now r = .deliver then
          if w.records ≠ [] ∧ w.batchBytes + r.bytes > req.effectiveBytes then w
          else
            diffWalk n (seq + 1)
              { records := w.records ++ [recordOut resolve req seq r]
                scanned := w.scanned + 1
                nextFromSeq := seq
                batchBytes := w.batchBytes + r.bytes }
        else
          diffWalk n (seq + 1) { w with scanned := w.scanned + 1, nextFromSeq := seq }
    else w

/-- The tombstone decision: a cursor from the future means the topic was recreated, one below
the involuntary floor lost records. -/
def diffTombstone : Option Tombstone :=
  if req.fromSeq > b.headSeq then
    some
      { gapFrom := b.seqBase
        gapTo := b.headSeq
        reason := .recreated
        missedEstimate := b.headSeq - b.seqBase + 1
        earliestSeq := b.earliestSeq
        headSeq := b.headSeq }
  else if req.fromSeq + 1 < b.evictEarliestSeq then
    some (buildTombstone req.fromSeq b.evictEarliestSeq b.headSeq
      (b.floors.reasonForGap (req.fromSeq + 1)))
  else none

def diffCursor : Nat :=
  if req.fromSeq > b.headSeq then b.earliestSeq - 1
  else if req.fromSeq + 1 < b.evictEarliestSeq then max (b.earliestSeq - 1) req.fromSeq
  else req.fromSeq

/-- `diff` behind its retention pass. -/
def diff : DiffResponse :=
  let cursor := b.diffCursor req
  let w := b.diffWalk resolve req now (b.headSeq - cursor) (cursor + 1) ⟨[], 0, cursor, 0⟩
  { records := w.records
    nextFromSeq := w.nextFromSeq
    headSeq := b.headSeq
    earliestSeq := b.earliestSeq
    caughtUp := w.nextFromSeq == b.headSeq
    tombstone := b.diffTombstone req
    lag := b.headSeq - w.nextFromSeq
    recordsScanned := w.scanned }

end Page

/-! ## What a page holds -/

section Walk

variable (b : TopicState) (resolve : Nat → Value × Option Value) (req : DiffRequest) (now : Int)

/-- What a walk delivers for the seq `q`. -/
def delivery (q : Nat) : Option RecordOut :=
  (b.index.get q).bind fun r =>
    if b.decision req now r = .deliver then some (recordOut resolve req q r) else none

/-- What it delivers for the `n` seqs from `seq` on. -/
def shownRun (seq n : Nat) : List RecordOut :=
  (List.range' seq n).filterMap (b.delivery resolve req now)

def pageBytes (os : List RecordOut) : Nat :=
  (os.map fun o => ((b.index.get o.seq).map (·.bytes)).getD 0).sum

structure WalkStep (seq : Nat) (w w' : DiffWalk) : Prop where
  next : w'.nextFromSeq = seq
  records : w'.records = w.records ++ (b.delivery resolve req now seq).toList
  bytes : w'.batchBytes = w.batchBytes + b.pageBytes (b.delivery resolve req now seq).toList
  limit : w.records.length < req.effectiveLimit
  budget : w'.records = w.records ∨ w.records = [] ∨ w'.batchBytes ≤ req.effectiveBytes

/-- A walk over `n` seqs behind those of `w` that ends with the records `os` and the cursor `next`:
it delivers all it passes over, and ends early only with something on the page. -/
structure Walked (n : Nat) (w : DiffWalk) (os : List RecordOut) (next : Nat) : Prop where
  lo : w.nextFromSeq ≤ next
  hi : next ≤ w.nextFromSeq + n
  records : os = w.records ++
    b.shownRun resolve req now (w.nextFromSeq + 1) (next - w.nextFromSeq)
  stop : next < w.nextFromSeq + n → os ≠ []

variable {b resolve req now} {n seq q : Nat} {w : DiffWalk} {o : RecordOut} {r : StoredRecord}

theorem effectiveLimit_pos (req : DiffRequest) : 0 < req.effectiveLimit := by
  unfold DiffRequest.effectiveLimit defaultLimit maxLimit
  split <;> omega

theorem delivery_eq_some : b.delivery resolve req now q = some o ↔
    ∃ r, b.index.get q = some r ∧ b.decision req now r = .deliver ∧
      recordOut resolve req q r = o := by
  simp [delivery, Option.bind_eq_some_iff]

theorem mem_shownRun : o ∈ b.shownRun resolve req now seq n ↔
    ∃ q, seq ≤ q ∧ q < seq + n ∧ ∃ r, b.index.get q = some r ∧ b.decision req now r = .deliver ∧
      recordOut resolve req q r = o := by
  simp [shownRun, delivery_eq_some, List.mem_range'_1, and_assoc]

theorem shownRun_succ (seq n : Nat) : b.shownRun resolve req now seq (n + 1) =
    (b.delivery resolve req now seq).toList ++ b.shownRun resolve req now (seq + 1) n := by
  unfold shownRun
  rw [List.range'_succ, List.filterMap_cons]
  cases b.delivery resolve req now seq <;> rfl

/-- **A walk** takes one more seq, or has something on the page. -/
theorem diffWalk_succ (n seq : Nat) (w : DiffWalk) :
    (b.diffWalk resolve req now (n + 1) seq w = w ∧ w.records ≠ []) ∨
      ∃ w', b.WalkStep resolve req now seq w w' ∧
        b.diffWalk resolve req now (n + 1) seq w = b.diffWalk resolve req now n (seq + 1) w' := by
  by_cases hlimit : w.records.length < req.effectiveLimit
  · have hskip : b.delivery resolve req now seq = none → ∀ k,
        b.WalkStep resolve req now seq w ⟨w.records, k, seq, w.batchBytes⟩ := fun hno k =>
      ⟨rfl, by simp [hno], by simp [hno, pageBytes], hlimit, .inl rfl⟩
    simp only [diffWalk, hlimit, if_true]
    cases hg : b.index.get seq with
    | none => exact .inr ⟨_, hskip (by simp [delivery, hg]) w.scanned, rfl⟩
    | some r =>
      by_cases hd : b.decision req now r = .deliver
      · have hyes : b.delivery resolve req now seq = some (recordOut resolve req seq r) :=
          delivery_eq_some.mpr ⟨r, hg, hd, rfl⟩
        simp only [hd, if_true]
        split
        · rename_i hfull
          exact .inl ⟨rfl, hfull.1⟩
        · rename_i hfits
          refine .inr ⟨_, ⟨rfl, by simp [hyes], ?_, hlimit, .inr ?_⟩, rfl⟩
          · simp [hyes, pageBytes, recordOut, hg]
          · by_cases hempty : w.records = []
            · exact .inl hempty
            · exact .inr (not_lt.mp fun hlt => hfits ⟨hempty, hlt⟩)
      · simp only [hd, if_false]
        exact .inr ⟨_, hskip (by simp [delivery, hg, hd]) _, rfl⟩
  · refine .inl ⟨by simp [diffWalk, hlimit], fun h => hlimit ?_⟩
    rw [h]
    exact effectiveLimit_pos req

theorem walked_diffWalk (n : Nat) (w : DiffWalk) : b.Walked resolve req now n w
    (b.diffWalk resolve req now n (w.nextFromSeq + 1) w).records
    (b.diffWalk resolve req now n (w.nextFromSeq + 1) w).nextFromSeq := by
  induction n generalizing w with
  | zero => exact ⟨le_rfl, le_rfl, by simp [diffWalk, shownRun], fun h => absurd h (lt_irrefl _)⟩
  | succ n ih =>
    rcases @diffWalk_succ b resolve req now n (w.nextFromSeq + 1) w with ⟨heq, hne⟩ | ⟨w', hstep, heq⟩
    · rw [heq]
      exact ⟨le_rfl, Nat.le_add_right _ _, by simp [shownRun], fun _ => hne⟩
    · have hrest := ih w'
      rw [hstep.next, ← heq] at hrest
      obtain ⟨hlo, hhi, hrecords, hstop⟩ := hrest
      rw [hstep.next] at hlo hhi hrecords hstop
      refine ⟨by omega, by omega, ?_, fun h => hstop (by omega)⟩
      rw [hrecords, hstep.records, List.append_assoc, ← shownRun_succ]
      congr 2
      omega

/-- **A page** delivers all that it passes over. -/
theorem walked_diff (b : TopicState) (resolve : Nat → Value × Option Value) (req : DiffRequest)
    (now : Int) : b.Walked resolve req now (b.headSeq - b.diffCursor req) ⟨[], 0, b.diffCursor req, 0⟩
      (b.diff resolve req now).records (b.diff resolve req now).nextFromSeq :=
  walked_diffWalk _ _

theorem diffCursor_le (b : TopicState) (req : DiffRequest) : b.diffCursor req ≤ b.headSeq := by
  have hle : b.earliestSeq ≤ b.headSeq + 1 := min_le_right _ _
  unfold diffCursor
  split
  · omega
  · split <;> omega

namespace Walked

variable {os : List RecordOut} {next : Nat}

theorem mem (h : b.Walked resolve req now n w os next) (hg : b.index.get q = some r)
    (hd : b.decision req now r = .deliver) (hlo : w.nextFromSeq < q) (hhi : q ≤ next) :
    recordOut resolve req q r ∈ os := by
  rw [h.records]
  exact List.mem_append_right _ (mem_shownRun.mpr ⟨q, hlo, by omega, r, hg, hd, rfl⟩)

theorem progress (h : b.Walked resolve req now n w os next) (hw : w.records = []) (hn : 0 < n) :
    w.nextFromSeq < next := by
  refine lt_of_le_of_ne h.lo fun heq => ?_
  refine h.stop (by omega) ?_
  rw [h.records, hw, heq, Nat.sub_self]
  rfl

end Walked

end Walk

variable {b : TopicState} {resolve : Nat → Value × Option Value} {req : DiffRequest} {now : Int}

theorem evictEarliestSeq_le_diffCursor (b : TopicState) (req : DiffRequest) :
    b.evictEarliestSeq ≤ b.diffCursor req + 1 := by
  have := b.evictEarliestSeq_le_earliestSeq
  unfold diffCursor
  split
  · omega
  · split <;> omega

/-- **A page holds only live records**, all at or above the involuntary floor and none above
the head. -/
theorem seq_of_mem_diff {o : RecordOut} (h : o ∈ (b.diff resolve req now).records) :
    b.evictEarliestSeq ≤ o.seq ∧ o.seq ≤ b.headSeq ∧ (b.index.live o.seq).isSome := by
  have hwalk := b.walked_diff resolve req now
  rw [hwalk.records] at h
  obtain ⟨q, hlo, hhi, r, hg, hd, rfl⟩ := mem_shownRun.mp h
  have hcur := evictEarliestSeq_le_diffCursor b req
  have hle := hwalk.hi
  simp only at hlo hhi hle
  have hlive : b.index.live q = some r :=
    TopicIndex.live_eq_some.mpr ⟨hg, deleted_eq_false_of_evaluate hd⟩
  refine ⟨?_, ?_, by rw [recordOut, hlive]; rfl⟩ <;> simp only [recordOut] <;> omega

end TopicState

end Topics
