import Topics.Paging
import Topics.Registry
import Topics.TopicSteps

/-!
# The log contract of a topic

One topic of an engine without a log on disk, one call after the other, under a clock that never
goes back.  Four floors, the front reclaim, the holes in place and the limits, which may change at
any time, have to agree on one watermark.
-/

namespace Topics

open Lib TopicState TopicIndex List Option

/-! ## Timestamps -/

theorem i64SaturatingSub_anti {now ts ts' : Int} (h : ts ≤ ts') :
    i64SaturatingSub now ts' ≤ i64SaturatingSub now ts := by
  unfold i64SaturatingSub
  omega

theorem not_expired_of_ttlScan_lt {now ttl : Int} {rs : List StoredRecord} {seq upto i : Nat}
    {r : StoredRecord} (hrise : (rs.map (·.ts)).Pairwise (· ≤ ·)) (hr : rs[i]? = some r)
    (hi : TopicState.ttlScan now ttl seq upto rs < seq + i) : i64SaturatingSub now r.ts ≤ ttl := by
  induction rs generalizing seq upto i with
  | nil => cases hr
  | cons x rs ih =>
    obtain ⟨hx, hrise⟩ := pairwise_cons.mp hrise
    unfold ttlScan at hi
    split at hi
    · -- the front is expired: the scan goes on
      have hge : seq ≤ ttlScan now ttl (seq + 1) seq rs := le_ttlScan (Nat.le_succ seq)
      cases i with
      | zero => omega
      | succ i => exact @ih (seq + 1) seq i hrise hr (by omega)
    · rename_i hfresh
      have hfresh : i64SaturatingSub now x.ts ≤ ttl := not_lt.mp hfresh
      cases i with
      | zero =>
        cases hr
        exact hfresh
      | succ i =>
        have hle := hx r.ts (mem_map_of_mem (mem_of_getElem? hr))
        exact (i64SaturatingSub_anti hle).trans hfresh

namespace TopicIndex

def stamps (ix : TopicIndex) : List Int := ix.records.map (·.ts)

theorem stamps_markDeleted (ix : TopicIndex) (seq : Nat) :
    (ix.markDeleted seq).1.stamps = ix.stamps := by
  unfold markDeleted
  split
  · rfl
  · rename_i r hr
    split
    · rfl
    · have hb := base_le_of_get hr
      have hget : ix.records[seq - ix.baseSeq]? = some r := by
        unfold get at hr
        rwa [if_neg (by omega)] at hr
      obtain ⟨hlt, rfl⟩ := List.getElem?_eq_some_iff.mp hget
      simp only [stamps, map_set, StoredRecord.markDeleted]
      rw [← getElem_map (fun r : StoredRecord => r.ts) (h := by simpa using hlt)]
      exact set_getElem_self _

theorem stamps_markAll (ix : TopicIndex) (seqs : List Nat) :
    (TopicState.markAll ix seqs).1.stamps = ix.stamps :=
  markAll_induct (P := fun ix' => ix'.stamps = ix.stamps) seqs rfl fun ix' s h =>
    (stamps_markDeleted ix' s).trans h

end TopicIndex

namespace TopicState

/-! ## Invariants -/

/-- What holds of the topic at every point of a call. -/
structure Watermarked (b : TopicState) : Prop where
  tail : b.index.tail = b.headSeq + 1
  seqBase : b.seqBase ≤ b.index.baseSeq
  positive : 0 < b.index.baseSeq
  top : b.floors.top ≤ b.headSeq
  below : b.index.deleteBelow ≤ b.headSeq + 1
  rise : b.index.stamps.Pairwise (· ≤ ·)

structure Trimmed (b : TopicState) : Prop extends Watermarked b where
  settled : b.Settled
  front : ∀ r ∈ b.index.records.head?, r.deleted = false

def Unexpired (b : TopicState) (now : Int) : Prop :=
  ∀ ts ∈ b.index.stamps, ttlExpired b.config.ttlMs now ts = false

/-- The first live record, whose age is within the TTL, or the seq behind the head. -/
structure FirstLive (b : TopicState) (now : Int) (first : Nat) : Prop where
  least : ∀ q r, b.index.live q = some r →
    first ≤ q ∧ q ≤ b.headSeq ∧ ttlExpired b.config.ttlMs now r.ts = false
  first : first = b.headSeq + 1 ∨ (b.index.live first).isSome = true

namespace Watermarked

variable {b : TopicState}

theorem setConfig (h : Watermarked b) (config : TopicConfig) :
    Watermarked { b with config := config } :=
  { h with }

theorem framed (h : Watermarked b) : b.Framed := ⟨h.tail, h.seqBase, h.top⟩

theorem commitFloors (h : Watermarked b) (now : Int) :
    Watermarked (b.commitFloors (b.planRetention now)) := by
  have htop := (h.framed.commitFloors now).top
  rw [commitFloors_eq] at htop ⊢
  exact { h with top := htop }

theorem deleteSelected (h : Watermarked b) (beforeSeq : Option Nat) (match_ : Option Filter) :
    Watermarked (b.deleteSelected beforeSeq match_ (some (b.headSeq + 1))) := by
  have hsteady := steady_deleteSelected b beforeSeq match_ (some (b.headSeq + 1))
  have hframed := h.framed.deleteSelected (fun n hn => (mem_some.mp hn).ge) h.below
    beforeSeq match_
  refine { hframed with positive := h.positive.trans_le hsteady.base, below := ?_, rise := ?_ }
  · have := h.below
    rw [hsteady.headSeq]
    unfold TopicState.deleteSelected
    simp only [markAll_deleteBelow, getD_some]
    split <;> omega
  · change (markAll b.index _).1.stamps.Pairwise _
    rw [stamps_markAll]
    exact h.rise

theorem reclaimFront (h : Watermarked b) : Trimmed (b.reclaimFront b.headSeq) := by
  have hframed := h.framed.reclaimFront
  have hrecords := reclaimFront_records b b.headSeq
  refine ⟨⟨hframed.tail, hframed.seqBase,
    h.positive.trans_le (steady_reclaimFront b b.headSeq).base, h.top, h.below, ?_⟩,
    h.framed.settled_reclaimFront, front_reclaimFront b _⟩
  unfold stamps
  rw [hrecords, map_drop]
  exact h.rise.sublist (drop_sublist _ _)

end Watermarked

namespace Trimmed

variable {b : TopicState}

section

variable (h : Trimmed b)

include h

theorem setConfig (config : TopicConfig) : Trimmed { b with config := config } :=
  ⟨h.toWatermarked.setConfig config, h.settled, h.front⟩

theorem enforceRetention (now : Int) : Trimmed (b.enforceRetention now) := by
  unfold TopicState.enforceRetention
  split
  · exact h
  · have hc := (h.toWatermarked.commitFloors now).reclaimFront
    rw [(steady_commitFloors b _).headSeq] at hc
    exact hc

theorem append {stored : List StoredRecord} {now : Int}
    (hstored : ∀ r ∈ stored, r.deleted = false ∧ r.ts = now)
    (hclock : ∀ ts ∈ b.index.stamps, ts ≤ now) : Trimmed (b.append stored) := by
  have hhead := append_headSeq h.tail stored
  have hframed := h.framed.append stored
  refine ⟨{ hframed with positive := ?_, below := ?_, rise := ?_ }, ?_, fun r hr => ?_⟩
  · rw [append_index, pushAll_baseSeq]
    exact h.positive
  · rw [append_index, pushAll_deleteBelow, hhead]
    have := h.below
    omega
  · have hnow : ∀ ts ∈ stored.map (·.ts), ts = now := by
      intro ts hts
      obtain ⟨r, hr, rfl⟩ := mem_map.mp hts
      exact (hstored r hr).2
    unfold stamps
    rw [append_index, pushAll_records, map_append]
    refine pairwise_append.mpr ⟨h.rise, ?_, fun ts hts ts' hts' => ?_⟩
    · refine pairwise_of_forall_mem_list fun ts hts ts' hts' => ?_
      rw [hnow ts hts, hnow ts' hts']
    · rw [hnow ts' hts']
      exact hclock ts hts
  · unfold Settled
    rw [append_floors, append_index, pushAll_baseSeq]
    exact h.settled
  · rw [append_index, pushAll_records] at hr
    cases hrs : b.index.records with
    | nil =>
      rw [hrs, nil_append] at hr
      exact (hstored r (mem_of_mem_head? hr)).1
    | cons x rs =>
      rw [hrs] at hr
      refine h.front r ?_
      rw [hrs]
      exact hr

theorem applyDelete (beforeSeq : Option Nat) (match_ : Option Filter) (now : Int) :
    Trimmed (b.applyDelete beforeSeq match_ (some (b.headSeq + 1)) now) := by
  have hhead := (steady_enforceRetention b now).headSeq
  have hsel := ((h.enforceRetention now).toWatermarked.deleteSelected beforeSeq match_).reclaimFront
  rw [(steady_deleteSelected _ beforeSeq match_ _).headSeq, hhead] at hsel
  unfold TopicState.applyDelete
  simp only [hhead]
  exact hsel

theorem earliestSeq_eq : b.earliestSeq = b.index.baseSeq := by
  have hsettled : b.floors.top < b.index.baseSeq := h.settled
  have hseqBase := h.seqBase
  have htail := h.tail
  unfold TopicIndex.tail at htail
  unfold earliestSeq Floors.earliestSeq
  omega

theorem firstLive {now : Int} (hage : b.Unexpired now) : b.FirstLive now b.earliestSeq := by
  rw [h.earliestSeq_eq]
  refine ⟨fun q r hq => ?_, ?_⟩
  · have hget := (live_eq_some.mp hq).1
    have htail := lt_tail_of_get hget
    rw [h.tail] at htail
    refine ⟨base_le_of_get hget, by omega, hage r.ts (mem_map_of_mem ?_)⟩
    exact mem_records_of_get hget
  · cases hrs : b.index.records with
    | nil =>
      left
      rw [← h.tail, TopicIndex.tail, hrs]
      rfl
    | cons x rs =>
      right
      have hx : x.deleted = false := h.front x (by rw [hrs]; rfl)
      have hlive : b.index.live b.index.baseSeq = some x := by
        refine live_eq_some.mpr ⟨?_, hx⟩
        unfold TopicIndex.get
        rw [if_neg (lt_irrefl _), Nat.sub_self, hrs]
        rfl
      rw [hlive]
      rfl

end

end Trimmed

/-! ## Ages -/

theorem Unexpired.of_subset {b b' : TopicState} {now : Int} (h : b.Unexpired now)
    (hconfig : b'.config = b.config) (hsub : b'.index.stamps ⊆ b.index.stamps) :
    b'.Unexpired now := by
  intro ts hts
  rw [hconfig]
  exact h ts (hsub hts)

theorem stamps_reclaimFront_subset (b : TopicState) (head : Nat) :
    (b.reclaimFront head).index.stamps ⊆ b.index.stamps :=
  map_subset _ (drop_subset _ _)

theorem stamps_enforceRetention_subset (b : TopicState) (now : Int) :
    (b.enforceRetention now).index.stamps ⊆ b.index.stamps := by
  unfold enforceRetention
  split
  · exact List.Subset.refl _
  · have hsub := stamps_reclaimFront_subset (b.commitFloors (b.planRetention now)) b.headSeq
    rw [commitFloors_eq] at hsub ⊢
    exact hsub

theorem stamps_applyDelete_subset (b : TopicState) (beforeSeq : Option Nat)
    (match_ : Option Filter) (bound : Option Nat) (now : Int) :
    (b.applyDelete beforeSeq match_ bound now).index.stamps ⊆
      (b.enforceRetention now).index.stamps := by
  have hmarks : ((b.enforceRetention now).deleteSelected beforeSeq match_ bound).index.stamps =
      (b.enforceRetention now).index.stamps := stamps_markAll _ _
  rw [← hmarks]
  exact stamps_reclaimFront_subset _ _

theorem exists_drop_enforceRetention (b : TopicState) (now : Int) :
    ∃ n, (b.enforceRetention now).index.baseSeq = b.index.baseSeq + n ∧
      (b.enforceRetention now).index.records = b.index.records.drop n := by
  unfold enforceRetention
  split
  · exact ⟨0, rfl, rfl⟩
  · rw [commitFloors_eq]
    exact ⟨_, rfl, rfl⟩

/-- **A pass leaves nothing expired.** -/
theorem Trimmed.unexpired_enforceRetention {b : TopicState} (h : Trimmed b) (now : Int) :
    (b.enforceRetention now).Unexpired now := by
  intro ts hts
  rw [(steady_enforceRetention b now).config]
  refine decide_eq_false fun ⟨httl, hexp⟩ => ?_
  by_cases hidle : b.retentionIdle = true
  · -- without limits there is no TTL, and a topic with head 0 has no slots
    rw [enforceRetention_of_idle hidle] at hts
    simp only [retentionIdle, Bool.or_eq_true, Bool.and_eq_true, beq_iff_eq] at hidle
    rcases hidle with hzero | ⟨⟨hzero, -⟩, -⟩
    · have htail := h.tail
      have hpos := h.positive
      unfold TopicIndex.tail at htail
      have hnil : b.index.records = [] := length_eq_zero_iff.mp (by omega)
      unfold stamps at hts
      rw [hnil] at hts
      cases hts
    · omega
  · -- a slot behind the pass lies above the expiry floor, so behind the expired prefix
    have hidle : b.retentionIdle = false := Bool.eq_false_iff.mpr hidle
    obtain ⟨n, hbase, hrecords⟩ := exists_drop_enforceRetention b now
    obtain ⟨r, hr, rfl⟩ := mem_map.mp hts
    obtain ⟨i, hi⟩ := mem_iff_getElem?.mp hr
    rw [hrecords, getElem?_drop] at hi
    have hsettled : (b.enforceRetention now).floors.top < (b.enforceRetention now).index.baseSeq :=
      (h.enforceRetention now).settled
    rw [enforceRetention_floors hidle, hbase, planRetention_expiryFloor] at hsettled
    have hscan : ttlScan now (asI64 b.config.ttlMs) b.index.baseSeq b.floors.expiryFloor
        b.index.records < b.index.baseSeq + (n + i) := by
      unfold Floors.top ttlFloor at hsettled
      rw [if_pos httl] at hsettled
      simp only at hsettled
      omega
    exact Int.not_lt.mpr (not_expired_of_ttlScan_lt h.rise hi hscan) hexp

end TopicState

/-! ## Calls -/

inductive LogReply where
  | written (seqs : List Nat)
  | topicFull
  | deleted
  | page (d : DiffResponse)
  | updated

/-- The topic, the time of the last call, and what it returned. -/
structure LogRun where
  topic : TopicState
  clock : Int
  reply : LogReply

/-- The calls on the topic, each with the time it reads. -/
inductive LogCall where
  | write (records : List RecordIn) (now : Int)
  | delete (beforeSeq : Option Nat) (match_ : Option Filter) (now : Int)
  | diff (req : DiffRequest) (now : Int)
  | putTopic (capRecords capBytes ttlMs : Nat) (now : Int)

def LogCall.now : LogCall → Int
  | .write _ now | .delete _ _ now | .diff _ now | .putTopic _ _ _ now => now

namespace LogRun

variable {Blob : Type}

def init (spec : TopicSpec) (clock : Int) : LogRun := ⟨spec.fresh, clock, .updated⟩

section Step

variable (S : Serde Blob) (resolve : Nat → Value × Option Value)

/-- `write`: retention, admission, the append, and retention again. -/
def write (b : TopicState) (records : List RecordIn) (now : Int) : TopicState × LogReply :=
  let stored := records.map fun r => r.stored S now
  let b := b.enforceRetention now
  if b.refuses stored then (b, .topicFull)
  else ((b.append stored).enforceRetention now, .written (b.stageAppend stored).2.seqs)

/-- `delete`: retention, the bound, and the delete below it. -/
def delete (b : TopicState) (beforeSeq : Option Nat) (match_ : Option Filter) (now : Int) :
    TopicState :=
  let b := b.enforceRetention now
  b.applyDelete beforeSeq match_ (some (b.headSeq + 1)) now

/-- `put_topic` on the topic: the new limits, and retention under them. -/
def putTopic (b : TopicState) (capRecords capBytes ttlMs : Nat) (now : Int) : TopicState :=
  { b with config := { b.config with
      capRecords := capRecords, capBytes := capBytes, ttlMs := ttlMs } }.enforceRetention now

/-- One call.  An empty batch and a delete without a selector are errors, and the clock does not go
back. -/
def step (s : LogRun) (c : LogCall) : Option LogRun :=
  if s.clock ≤ c.now then
    match c with
    | .write records now =>
      if records = [] then none
      else
        let (topic, reply) := write S s.topic records now
        some ⟨topic, now, reply⟩
    | .delete beforeSeq match_ now =>
      if beforeSeq = none ∧ match_ = none then none
      else some ⟨delete s.topic beforeSeq match_ now, now, .deleted⟩
    | .diff req now =>
      let topic := s.topic.enforceRetention now
      some ⟨topic, now, .page (topic.diff resolve req now)⟩
    | .putTopic capRecords capBytes ttlMs now =>
      some ⟨putTopic s.topic capRecords capBytes ttlMs now, now, .updated⟩
  else none

end Step

/-! ## One call -/

/-- What a call at time `now` does to the topic. -/
structure Moves (b b' : TopicState) (now : Int) : Prop where
  trimmed : b'.Trimmed
  unexpired : b'.Unexpired now
  onward : FloorState.Onward b b'
  base : b.index.baseSeq ≤ b'.index.baseSeq
  stamps : ∀ ts ∈ b'.index.stamps, ts ∈ b.index.stamps ∨ ts = now
  discard : b'.config.discard = b.config.discard

variable {b b' : TopicState} {req : DiffRequest} {q : Nat}

theorem moves_enforceRetention (h : b.Trimmed) (now : Int) :
    Moves b (b.enforceRetention now) now := by
  have hsteady := steady_enforceRetention b now
  exact ⟨h.enforceRetention now, h.unexpired_enforceRetention now,
    .of_steady hsteady (shrinks_enforceRetention b now), hsteady.base,
    fun ts hts => .inl (stamps_enforceRetention_subset b now hts), by rw [hsteady.config]⟩

theorem Moves.trans {b b' b'' : TopicState} {now : Int} (h : Moves b b' now) (h' : Moves b' b'' now) :
    Moves b b'' now :=
  ⟨h'.trimmed, h'.unexpired, h.onward.trans h'.onward, h.base.trans h'.base,
    fun ts hts => (h'.stamps ts hts).elim (h.stamps ts) .inr, h'.discard.trans h.discard⟩

theorem onward_append (h : b.index.tail = b.headSeq + 1) (stored : List StoredRecord) :
    FloorState.Onward b (b.append stored) := by
  refine ⟨?_, ?_, fun q r hq => ?_⟩
  · rw [append_headSeq h]
    exact Nat.le_add_right _ _
  · rw [append_index, tail_pushAll]
    exact Nat.le_add_right _ _
  · by_cases hlt : q < b.index.tail
    · rw [append_index, live_pushAll, if_pos hlt] at hq
      exact .inl hq
    · exact .inr (not_lt.mp hlt)

theorem refuses_old (h : b.config.discard = .old) (stored : List StoredRecord) :
    b.refuses stored = false := by
  simp [refuses, h, evictionAdmit]

theorem moves_append (h : b.Trimmed) {stored : List StoredRecord} {now : Int}
    (hstored : ∀ r ∈ stored, r.deleted = false ∧ r.ts = now)
    (hclock : ∀ ts ∈ b.index.stamps, ts ≤ now) :
    Moves b ((b.append stored).enforceRetention now) now := by
  have hpass := moves_enforceRetention (h.append hstored hclock) now
  refine ⟨hpass.trimmed, hpass.unexpired, (onward_append h.tail stored).trans hpass.onward, ?_, ?_, ?_⟩
  · have := hpass.base
    rw [append_index, pushAll_baseSeq] at this
    exact this
  · intro ts hts
    rcases hpass.stamps ts hts with hts | hts
    · rw [append_index, stamps, pushAll_records, map_append] at hts
      rcases mem_append.mp hts with hts | hts
      · exact .inl hts
      · obtain ⟨r, hr, rfl⟩ := mem_map.mp hts
        exact .inr (hstored r hr).2
    · exact .inr hts
  · rw [hpass.discard, append_config]

theorem moves_applyDelete (h : b.Trimmed) (beforeSeq : Option Nat) (match_ : Option Filter)
    (now : Int) :
    Moves b (b.applyDelete beforeSeq match_ (some (b.headSeq + 1)) now) now := by
  have hpass := moves_enforceRetention h now
  have hsteady := steady_applyDelete b beforeSeq match_ (some (b.headSeq + 1)) now
  have hsub := stamps_applyDelete_subset b beforeSeq match_ (some (b.headSeq + 1)) now
  refine ⟨h.applyDelete beforeSeq match_ now, hpass.unexpired.of_subset ?_ hsub,
    .of_steady hsteady (shrinks_applyDelete b _ _ _ _), hsteady.base,
    fun ts hts => hpass.stamps ts (hsub hts), by rw [hsteady.config]⟩
  rw [hsteady.config, (steady_enforceRetention b now).config]

theorem moves_putTopic (h : b.Trimmed) (capRecords capBytes ttlMs : Nat) (now : Int) :
    Moves b (putTopic b capRecords capBytes ttlMs now) now := by
  have hpass := moves_enforceRetention (h.setConfig { b.config with
    capRecords := capRecords, capBytes := capBytes, ttlMs := ttlMs }) now
  exact { hpass with onward := ⟨hpass.onward.head, hpass.onward.tail, hpass.onward.live⟩ }

/-- What holds between calls, whatever the topic discards. -/
structure Timed (s : LogRun) : Prop where
  trimmed : s.topic.Trimmed
  clock : ∀ ts ∈ s.topic.index.stamps, ts ≤ s.clock

structure Contract (s : LogRun) : Prop where
  trimmed : s.topic.Trimmed
  clock : ∀ ts ∈ s.topic.index.stamps, ts ≤ s.clock
  discard : s.topic.config.discard = .old

variable {S : Serde Blob} {resolve : Nat → Value × Option Value} {s s' : LogRun} {c : LogCall}

/-- **One call.** -/
theorem Timed.moves (h : Timed s) (hstep : step S resolve s c = some s') :
    Moves s.topic s'.topic c.now ∧ s'.clock = c.now ∧ s.clock ≤ c.now := by
  unfold step at hstep
  obtain ⟨hclock, hstep⟩ := ite_none_right_eq_some.mp hstep
  refine and_assoc.mp ⟨?_, hclock⟩
  have hpass := moves_enforceRetention h.trimmed c.now
  cases c with
  | write records now =>
    simp only [write] at hstep
    split at hstep
    · cases hstep
    · split at hstep <;> cases hstep
      · exact ⟨hpass, rfl⟩
      · refine ⟨hpass.trans (moves_append hpass.trimmed ?_ fun ts hts => ?_), rfl⟩
        · intro r hr
          obtain ⟨r', -, rfl⟩ := mem_map.mp hr
          exact ⟨rfl, rfl⟩
        · rcases hpass.stamps ts hts with hts | rfl
          · exact (h.clock ts hts).trans hclock
          · exact le_rfl
  | delete beforeSeq match_ now =>
    simp only at hstep
    split at hstep
    · cases hstep
    · cases hstep
      exact ⟨hpass.trans (moves_applyDelete hpass.trimmed beforeSeq match_ now), rfl⟩
  | diff req now =>
    cases hstep
    exact ⟨hpass, rfl⟩
  | putTopic capRecords capBytes ttlMs now =>
    cases hstep
    exact ⟨moves_putTopic h.trimmed capRecords capBytes ttlMs now, rfl⟩

theorem Timed.step (h : Timed s) (hstep : step S resolve s c = some s') : Timed s' := by
  obtain ⟨hmoves, hnow, hclock⟩ := h.moves hstep
  refine ⟨hmoves.trimmed, fun ts hts => ?_⟩
  rw [hnow]
  rcases hmoves.stamps ts hts with hts | rfl
  · exact (h.clock ts hts).trans hclock
  · exact le_rfl

theorem Contract.timed (h : Contract s) : Timed s := ⟨h.trimmed, h.clock⟩

theorem Contract.step (h : Contract s) (hstep : step S resolve s c = some s') : Contract s' :=
  have hnext := h.timed.step hstep
  ⟨hnext.trimmed, hnext.clock, (h.timed.moves hstep).1.discard.trans h.discard⟩

/-- **The seqs of a batch.** -/
theorem Contract.write_reply (h : Contract s) {records : List RecordIn} {now : Int}
    (hstep : LogRun.step S resolve s (.write records now) = some s') :
    s'.reply = .written (List.range' (s.topic.headSeq + 1) records.length) ∧
      s'.topic.headSeq = s.topic.headSeq + records.length := by
  have hpass := moves_enforceRetention h.trimmed now
  have hsteady := steady_enforceRetention s.topic now
  have hold : (s.topic.enforceRetention now).config.discard = .old :=
    hpass.discard.trans h.discard
  unfold LogRun.step at hstep
  split at hstep
  · simp only at hstep
    split at hstep
    · cases hstep
    · simp only [write, refuses_old hold, Bool.false_eq_true, if_false] at hstep
      cases hstep
      refine ⟨?_, ?_⟩
      · simp only [StagedAppend.seqs, stageAppend, length_map]
        rw [hpass.trimmed.tail, hsteady.headSeq]
      · simp only [(steady_enforceRetention _ now).headSeq,
          append_headSeq hpass.trimmed.tail, length_map]
  · cases hstep

theorem diff_reply {now : Int} (hstep : LogRun.step S resolve s (.diff req now) = some s') :
    s'.reply = .page (s'.topic.diff resolve req now) := by
  unfold LogRun.step at hstep
  split at hstep
  · cases hstep
    rfl
  · cases hstep

theorem isSome_diffTombstone :
    (b.diffTombstone req).isSome ↔ b.headSeq < req.fromSeq ∨ req.fromSeq + 1 < b.evictEarliestSeq := by
  unfold diffTombstone
  split
  · rename_i hahead
    exact ⟨fun _ => .inl hahead, fun _ => rfl⟩
  · rename_i hahead
    split
    · rename_i hgap
      exact ⟨fun _ => .inr hgap, fun _ => rfl⟩
    · rename_i hgap
      simp only [isSome_none, Bool.false_eq_true, false_iff, not_or]
      exact ⟨hahead, hgap⟩

/-! ## Every run -/

theorem timed_init (spec : TopicSpec) (clock : Int) : Timed (init spec clock) := by
  refine ⟨⟨⟨rfl, le_rfl, Nat.zero_lt_one, le_rfl, Nat.zero_le _, List.Pairwise.nil⟩,
    Nat.zero_lt_one, ?_⟩, forall_mem_nil _⟩
  intro r hr
  cases hr

theorem trimmed_of_exec {spec : TopicSpec} {clock : Int} {cs : List LogCall}
    (hrun : exec (LogRun.step S resolve) (init spec clock) cs = some s) : s.topic.Trimmed :=
  (exec_invariant _ (fun _ _ _ h hs => Timed.step h hs) (timed_init spec clock) hrun).trimmed

theorem dead_of_moves {now : Int} (htail : b.index.tail = b.headSeq + 1) (h : Moves b b' now)
    (hq : q ≤ b.headSeq) (hdead : b.index.live q = none) :
    q ≤ b'.headSeq ∧ b'.index.live q = none := by
  refine ⟨hq.trans h.onward.head, ?_⟩
  cases hlive : b'.index.live q with
  | none => rfl
  | some r =>
    rcases h.onward.live q r hlive with hr | hle
    · rw [hdead] at hr
      cases hr
    · omega

theorem dead_run {cs : List LogCall} (h : Contract s) (hq : q ≤ s.topic.headSeq)
    (hdead : s.topic.index.live q = none) (hrun : exec (LogRun.step S resolve) s cs = some s') :
    Contract s' ∧ q ≤ s'.topic.headSeq ∧ s'.topic.index.live q = none := by
  refine exec_invariant _ (I := fun s => Contract s ∧ q ≤ s.topic.headSeq ∧
    s.topic.index.live q = none) ?_ ⟨h, hq, hdead⟩ hrun
  rintro s c s' ⟨h, hq, hdead⟩ hstep
  exact ⟨h.step hstep, dead_of_moves h.trimmed.tail (h.timed.moves hstep).1 hq hdead⟩

/-- **The log contract.**  After every run of calls, for every call that follows:

1. a batch gets the seqs behind the head, one after the other;
2. head and first seq do not go back;
3. the first seq is that of the first live record, or the one behind the head;
4. `evict_earliest_seq ≤ earliest_seq ≤ head_seq + 1`;
5. a page has a tombstone exactly if its cursor is ahead of the head or below the involuntary floor;
6. a seq that is deleted or evicted is in no page from then on. -/
theorem log_contract {spec : TopicSpec} (hdiscard : spec.config.discard = .old) {clock : Int}
    {cs : List LogCall} (hrun : exec (LogRun.step S resolve) (init spec clock) cs = some s) :
    (∀ c s', LogRun.step S resolve s c = some s' →
      (∀ records now, c = .write records now →
        ∃ seqs, s'.reply = .written seqs ∧ seqs = List.range' (s.topic.headSeq + 1) records.length ∧
          s'.topic.headSeq = s.topic.headSeq + records.length) ∧
      (s.topic.headSeq ≤ s'.topic.headSeq ∧ s.topic.earliestSeq ≤ s'.topic.earliestSeq) ∧
      s'.topic.FirstLive s'.clock s'.topic.earliestSeq ∧
      (s'.topic.evictEarliestSeq ≤ s'.topic.earliestSeq ∧
        s'.topic.earliestSeq ≤ s'.topic.headSeq + 1) ∧
      ∀ req now, c = .diff req now → ∃ d, s'.reply = .page d ∧
        (d.tombstone.isSome ↔
          s'.topic.headSeq < req.fromSeq ∨ req.fromSeq + 1 < s'.topic.evictEarliestSeq)) ∧
    ∀ q, q ≤ s.topic.headSeq → s.topic.index.live q = none → ∀ cs' s₁ req now s₂ d,
      exec (LogRun.step S resolve) s cs' = some s₁ →
      LogRun.step S resolve s₁ (.diff req now) = some s₂ → s₂.reply = .page d →
        ∀ o ∈ d.records, o.seq ≠ q := by
  have h : Contract s := exec_invariant _ (fun _ _ _ h hs => h.step hs)
    ⟨(timed_init spec clock).trimmed, (timed_init spec clock).clock, hdiscard⟩ hrun
  refine ⟨fun c s' hstep => ?_, ?_⟩
  · obtain ⟨hmoves, hnow, -⟩ := h.timed.moves hstep
    refine ⟨?_, ⟨hmoves.onward.head, ?_⟩, ?_, ⟨?_, ?_⟩, ?_⟩
    · rintro records now rfl
      obtain ⟨hreply, hhead⟩ := h.write_reply hstep
      exact ⟨_, hreply, rfl, hhead⟩
    · rw [h.trimmed.earliestSeq_eq, hmoves.trimmed.earliestSeq_eq]
      exact hmoves.base
    · rw [hnow]
      exact hmoves.trimmed.firstLive hmoves.unexpired
    · exact s'.topic.evictEarliestSeq_le_earliestSeq
    · exact min_le_right _ _
    · rintro req now rfl
      exact ⟨_, diff_reply hstep, isSome_diffTombstone⟩
  · intro q hq hdead cs' s₁ req now s₂ d hrun' hstep hreply o ho hseq
    obtain ⟨h₁, hq₁, hdead₁⟩ := dead_run h hq hdead hrun'
    obtain ⟨-, hdead₂⟩ := dead_of_moves h₁.trimmed.tail (h₁.timed.moves hstep).1 hq₁ hdead₁
    rw [diff_reply hstep] at hreply
    cases hreply
    obtain ⟨-, -, hlive⟩ := seq_of_mem_diff ho
    rw [hseq, hdead₂] at hlive
    cases hlive

/-- Two batches, a delete by tag, a TTL, and a write when all that is left has expired. -/
def expiredBetween : List LogCall :=
  [.write [⟨none, some "a", .null, none⟩, ⟨none, some "b", .null, none⟩] 0,
    .write [⟨none, some "a", .null, none⟩] 3, .delete none (some ⟨.eq, "a"⟩) 4,
    .putTopic 2 0 5 4, .write [⟨none, some "c", .null, none⟩] 10]

theorem log_contract_expiredBetween :
    ∃ s s', exec (LogRun.step Serde.identity fun _ => (.null, none))
        (init ⟨"jobs", 1, {}, 0⟩ 0) expiredBetween = some s ∧
      LogRun.step Serde.identity (fun _ => (.null, none)) s (.diff {} 12) = some s' ∧
      s'.topic.headSeq = 4 ∧ s'.topic.earliestSeq = 4 ∧ s'.topic.FirstLive 12 4 ∧
      ∃ d, s'.reply = .page d ∧ (d.tombstone.isSome ↔ 4 < 0 ∨ 0 + 1 < s'.topic.evictEarliestSeq) := by
  have hrun : exec (LogRun.step Serde.identity fun _ => (.null, none))
    (init ⟨"jobs", 1, {}, 0⟩ 0) expiredBetween = some _ := rfl
  obtain ⟨-, -, hfirst, -, hpage⟩ := (log_contract rfl hrun).1 (.diff {} 12) _ rfl
  exact ⟨_, _, hrun, rfl, by decide +kernel, by decide +kernel, hfirst, hpage {} 12 rfl⟩

end LogRun

end Topics
