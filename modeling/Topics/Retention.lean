import Topics.Diff

/-!
# Retention passes

What one retention pass plans and what it leaves behind, for a topic that only appends and
retention have touched.
-/

namespace Topics

open TopicIndex List Bool

namespace TopicState

/-! ## The scans -/

theorem ttlScan_le (now ttl : Int) (rs : List StoredRecord) (seq upto : Nat) :
    ttlScan now ttl seq upto rs ≤ max upto (seq + rs.length - 1) := by
  induction rs generalizing seq upto with
  | nil => exact le_max_left _ _
  | cons r rs ih =>
    unfold ttlScan
    split
    · refine le_trans (ih (seq + 1) seq) ?_
      rw [length_cons]
      omega
    · exact le_max_left _ _

variable {now ttl : Int} {rs : List StoredRecord} {seq upto q : Nat} {r : StoredRecord}
  {b : TopicState}

theorem le_ttlScan (h : upto ≤ seq) :
    upto ≤ ttlScan now ttl seq upto rs := by
  induction rs generalizing seq upto with
  | nil => exact le_rfl
  | cons r rs ih =>
    unfold ttlScan
    split
    · exact h.trans (ih (Nat.le_succ seq))
    · exact le_rfl

theorem expired_of_le_ttlScan {seq upto i : Nat} (hr : rs[i]? = some r)
    (hi : seq + i ≤ ttlScan now ttl seq upto rs) :
    i64SaturatingSub now r.ts > ttl ∨ seq + i ≤ upto := by
  induction rs generalizing seq upto i with
  | nil => cases hr
  | cons r₀ rs ih =>
    unfold ttlScan at hi
    split at hi
    · rename_i hexp
      cases i with
      | zero =>
        cases hr
        exact .inl hexp
      | succ i =>
        rw [getElem?_cons_succ] at hr
        have hi' : seq + 1 + i ≤ ttlScan now ttl (seq + 1) seq rs := by omega
        rcases ih hr hi' with h | h
        · exact .inl h
        · omega
    · exact .inr hi

theorem byteScan_le (floor : Nat) (rs : List StoredRecord) (seq excess evictTo : Nat) :
    byteScan floor seq excess evictTo rs ≤ max evictTo (seq + rs.length - 1) := by
  induction rs generalizing seq excess evictTo with
  | nil => exact le_max_left _ _
  | cons r rs ih =>
    unfold byteScan
    rw [length_cons]
    split
    · exact le_trans (ih (seq + 1) excess evictTo) (by omega)
    · split
      · exact le_max_left _ _
      · exact le_trans (ih (seq + 1) (excess - r.bytes) seq) (by omega)

/-! ## The plan -/

def capFloor (b : TopicState) : Nat :=
  if b.config.capRecords > 0 then b.headSeq - b.config.capRecords else 0

def ttlFloor (b : TopicState) (now : Int) : Nat :=
  if b.config.ttlMs > 0 then
    ttlScan now (asI64 b.config.ttlMs) b.index.baseSeq b.floors.expiryFloor b.index.records
  else b.floors.expiryFloor

/-- The floor the byte cap asks for once the other two are planned. -/
def byteFloor (b : TopicState) (evictFloor expiryFloor : Nat) : Nat :=
  if b.config.capBytes > 0 ∧ b.bytesRetained > b.config.capBytes then
    byteScan (max evictFloor expiryFloor) b.index.baseSeq
      (b.bytesRetained - b.config.capBytes) evictFloor b.index.records
  else evictFloor

theorem planRetention_expiryFloor (b : TopicState) (now : Int) :
    (b.planRetention now).expiryFloor = max b.floors.expiryFloor (b.ttlFloor now) := rfl

private theorem capStep_eq (b : TopicState) :
    (if decide (b.config.capRecords > 0 ∧ b.headSeq > b.config.capRecords ∧
        b.headSeq - b.config.capRecords > b.floors.evictFloor) = true
      then b.headSeq - b.config.capRecords else b.floors.evictFloor) =
      max b.floors.evictFloor b.capFloor := by
  simp only [decide_eq_true_eq]
  unfold capFloor
  split
  · rename_i h
    rw [if_pos h.1]
    omega
  · split <;> omega

theorem planRetention_evictFloor (b : TopicState) (now : Int) :
    (b.planRetention now).evictFloor =
      max (max b.floors.evictFloor b.capFloor)
        (b.byteFloor (max b.floors.evictFloor b.capFloor)
          (b.planRetention now).expiryFloor) := by
  rw [← capStep_eq]
  rfl

theorem planRetention_durableAdvance (b : TopicState) (now : Int) :
    (b.planRetention now).durableAdvance =
      (decide (b.ttlFloor now > b.floors.expiryFloor) ||
        decide (b.byteFloor (max b.floors.evictFloor b.capFloor)
          (b.planRetention now).expiryFloor > max b.floors.evictFloor b.capFloor)) := by
  rw [← capStep_eq]
  rfl

theorem planRetention_of_not_durable (h : (b.planRetention now).durableAdvance = false) :
    (b.planRetention now).expiryFloor = b.floors.expiryFloor ∧
      (b.planRetention now).evictFloor = max b.floors.evictFloor b.capFloor := by
  rw [planRetention_durableAdvance] at h
  obtain ⟨httl, hbytes⟩ := or_eq_false_iff.mp h
  have httl := not_lt.mp (of_decide_eq_false httl)
  have hbytes := not_lt.mp (of_decide_eq_false hbytes)
  refine ⟨?_, ?_⟩
  · rw [planRetention_expiryFloor]
    exact max_eq_left httl
  · rw [planRetention_evictFloor]
    exact max_eq_left hbytes

theorem planRetention_of_not_advanced (h : (b.planRetention now).floorAdvanced = false) :
    (b.planRetention now).evictFloor = b.floors.evictFloor ∧
      (b.planRetention now).expiryFloor = b.floors.expiryFloor := by
  obtain ⟨h', hbytes⟩ := or_eq_false_iff.mp h
  obtain ⟨httl, hcap⟩ := or_eq_false_iff.mp h'
  have hdur : (b.planRetention now).durableAdvance = false :=
    or_eq_false_iff.mpr ⟨httl, hbytes⟩
  obtain ⟨hexp, hev⟩ := planRetention_of_not_durable hdur
  -- without an advance of the record cap the first two steps end at the old floor
  have hstep := capStep_eq b
  rw [hcap] at hstep
  exact ⟨hev.trans hstep.symm, hexp⟩

theorem evictFloor_le_planRetention (b : TopicState) (now : Int) :
    b.floors.evictFloor ≤ (b.planRetention now).evictFloor := by
  rw [planRetention_evictFloor]
  omega

theorem capFloor_le_planRetention (b : TopicState) (now : Int) :
    b.capFloor ≤ (b.planRetention now).evictFloor := by
  rw [planRetention_evictFloor]
  omega

theorem expiryFloor_le_planRetention (b : TopicState) (now : Int) :
    b.floors.expiryFloor ≤ (b.planRetention now).expiryFloor := by
  rw [planRetention_expiryFloor]
  omega

theorem planRetention_evictFloor_of_capBytes_zero (h : b.config.capBytes = 0) (now : Int) :
    (b.planRetention now).evictFloor = max b.floors.evictFloor b.capFloor := by
  rw [planRetention_evictFloor]
  unfold byteFloor
  rw [if_neg fun hc => absurd hc.1 (by omega), max_self]

theorem commitFloors_planRetention (b : TopicState) (now : Int) :
    (b.commitFloors (b.planRetention now)).floors =
      { b.floors with
        evictFloor := (b.planRetention now).evictFloor
        expiryFloor := (b.planRetention now).expiryFloor } := by
  unfold commitFloors
  split
  · simp only [max_eq_right (evictFloor_le_planRetention b now),
      max_eq_right (expiryFloor_le_planRetention b now)]
  · rename_i h
    obtain ⟨hev, hexp⟩ := planRetention_of_not_advanced (eq_false_iff.mpr h)
    rw [hev, hexp]

theorem commitFloors_eq (b : TopicState) (now : Int) :
    b.commitFloors (b.planRetention now) = { b with floors :=
      { b.floors with
        evictFloor := (b.planRetention now).evictFloor
        expiryFloor := (b.planRetention now).expiryFloor } } := by
  rw [← commitFloors_planRetention]
  unfold commitFloors
  split <;> rfl

theorem enforceRetention_floors (hidle : b.retentionIdle = false) (now : Int) :
    (b.enforceRetention now).floors =
      { b.floors with
        evictFloor := (b.planRetention now).evictFloor
        expiryFloor := (b.planRetention now).expiryFloor } := by
  unfold enforceRetention
  rw [hidle, if_neg Bool.false_ne_true, reclaimFront_floors]
  exact commitFloors_planRetention b now

theorem enforceRetention_of_idle (hidle : b.retentionIdle = true) (now : Int) :
    b.enforceRetention now = b := by
  unfold enforceRetention
  rw [hidle, if_pos rfl]

theorem enforceRetention_of_ttl_zero (h : b.config.ttlMs = 0) (now now' : Int) :
    b.enforceRetention now = b.enforceRetention now' := by
  have hplan : b.planRetention now = b.planRetention now' := by
    unfold planRetention
    rw [h]
    rfl
  unfold enforceRetention
  rw [hplan]

theorem expired_of_le_ttlFloor (hr : b.index.get q = some r) (hq : q ≤ b.ttlFloor now) :
    ttlExpired b.config.ttlMs now r.ts = true ∨ q ≤ b.floors.expiryFloor := by
  have hbase := base_le_of_get hr
  unfold ttlFloor at hq
  split at hq
  · rename_i httl
    unfold TopicIndex.get at hr
    rw [if_neg hbase.not_gt] at hr
    have hq' : b.index.baseSeq + (q - b.index.baseSeq) ≤ ttlScan now (asI64 b.config.ttlMs)
        b.index.baseSeq b.floors.expiryFloor b.index.records := by
      rw [Nat.add_sub_cancel' hbase]
      exact hq
    rcases expired_of_le_ttlScan hr hq' with hexp | hle
    · exact .inl (decide_eq_true ⟨httl, hexp⟩)
    · rw [Nat.add_sub_cancel' hbase] at hle
      exact .inr hle
  · exact .inr hq

/-! ## What an append leaves -/

@[simp] theorem append_index (b : TopicState) (records : List StoredRecord) :
    (b.append records).index = b.index.pushAll records := by
  unfold append
  rw [publishStagedNoSeal_index]
  rfl

@[simp] theorem append_floors (b : TopicState) (records : List StoredRecord) :
    (b.append records).floors = b.floors := by
  unfold append publishStagedNoSeal
  split <;> rfl

@[simp] theorem append_config (b : TopicState) (records : List StoredRecord) :
    (b.append records).config = b.config := by
  unfold append publishStagedNoSeal
  split <;> rfl

@[simp] theorem append_name (b : TopicState) (records : List StoredRecord) :
    (b.append records).name = b.name := by
  unfold append publishStagedNoSeal
  split <;> rfl

@[simp] theorem append_topicId (b : TopicState) (records : List StoredRecord) :
    (b.append records).topicId = b.topicId := by
  unfold append publishStagedNoSeal
  split <;> rfl

@[simp] theorem append_seqBase (b : TopicState) (records : List StoredRecord) :
    (b.append records).seqBase = b.seqBase := by
  unfold append publishStagedNoSeal
  split <;> rfl

theorem append_headSeq (h : b.index.tail = b.headSeq + 1) (records : List StoredRecord) :
    (b.append records).headSeq = b.headSeq + records.length := by
  unfold append publishStagedNoSeal
  split
  · rename_i hc
    have hlen : records.length = 0 := hc
    rw [hlen]
    rfl
  · change b.index.tail + records.length - 1 = _
    omega

theorem append_liveCount (b : TopicState) (records : List StoredRecord) :
    (b.append records).liveCount = b.liveCount + records.length := by
  unfold append publishStagedNoSeal
  split
  · rename_i hc
    have hlen : records.length = 0 := hc
    rw [hlen]
    rfl
  · rfl

theorem append_bytesRetained (b : TopicState) (records : List StoredRecord) :
    (b.append records).bytesRetained = b.bytesRetained + (records.map (·.bytes)).sum := by
  unfold append publishStagedNoSeal
  split
  · rename_i hc
    rw [length_eq_zero_iff.mp hc]
    rfl
  · rfl

/-! ## Topics without deletes -/

/-- The invariant of a topic that only appends and retention have touched: a dense deque
without holes from the floors at the latest, and exact counters. -/
structure Plain (b : TopicState) : Prop where
  tail : b.index.tail = b.headSeq + 1
  seqBase : b.seqBase = seqBaseDefault
  base : seqBaseDefault ≤ b.index.baseSeq
  base_le : b.index.baseSeq ≤ b.floors.top + 1
  top_le : b.floors.top ≤ b.headSeq
  deleteFloor : b.floors.deleteFloor = 0
  sourceTrim : b.floors.sourceTrimFloor = 0
  whole : ∀ r ∈ b.index.records, r.deleted = false
  count : b.liveCount = b.index.records.length
  bytes : b.bytesRetained = (b.index.records.map (·.bytes)).sum

def Settled (b : TopicState) : Prop := b.floors.top < b.index.baseSeq

theorem front_reclaimFront (b : TopicState) (head : Nat) :
    ∀ r ∈ (b.reclaimFront head).index.records.head?, r.deleted = false := by
  intro r hr
  rw [reclaimFront_records] at hr
  unfold reclaimCount at hr
  simp only at hr
  generalize min (b.floors.earliestSeq b.seqBase head - b.index.baseSeq) b.index.records.length = n
    at hr
  rw [← drop_drop] at hr
  have hsplit := takeWhile_append_dropWhile (p := fun r : StoredRecord => r.deleted)
    (l := b.index.records.drop n)
  rw [← hsplit, drop_left' (by rw [hsplit])] at hr
  have hnot := head?_dropWhile_not (fun r : StoredRecord => r.deleted) (b.index.records.drop n)
  rw [Option.mem_def.mp hr] at hnot
  exact hnot

theorem plain_new (name : String) (topicId : Nat) (config : TopicConfig) :
    (TopicState.new name topicId config seqBaseDefault).Plain where
  tail := tail_new seqBaseDefault
  seqBase := rfl
  base := le_rfl
  base_le := le_rfl
  top_le := le_rfl
  deleteFloor := rfl
  sourceTrim := rfl
  whole _ hr := (not_mem_nil hr).elim
  count := rfl
  bytes := rfl

theorem settled_new (name : String) (topicId : Nat) (config : TopicConfig) :
    (TopicState.new name topicId config seqBaseDefault).Settled :=
  Nat.zero_lt_one

theorem planRetention_le_headSeq (htail : b.index.tail = b.headSeq + 1)
    (htop : b.floors.top ≤ b.headSeq) (now : Int) :
    (b.planRetention now).evictFloor ≤ b.headSeq ∧
      (b.planRetention now).expiryFloor ≤ b.headSeq := by
  have htop : max b.floors.evictFloor b.floors.expiryFloor ≤ b.headSeq := by
    unfold Floors.top at htop
    omega
  have hlast : b.index.baseSeq + b.index.records.length - 1 ≤ b.headSeq := by
    unfold TopicIndex.tail at htail
    omega
  have hcap : b.capFloor ≤ b.headSeq := by
    unfold capFloor
    split <;> omega
  have hexp : (b.planRetention now).expiryFloor ≤ b.headSeq := by
    rw [planRetention_expiryFloor]
    unfold ttlFloor
    split
    · have := ttlScan_le now (asI64 b.config.ttlMs) b.index.records b.index.baseSeq
        b.floors.expiryFloor
      omega
    · omega
  refine ⟨?_, hexp⟩
  rw [planRetention_evictFloor]
  unfold byteFloor
  split
  · have := byteScan_le (max (max b.floors.evictFloor b.capFloor)
      (b.planRetention now).expiryFloor) b.index.records b.index.baseSeq
      (b.bytesRetained - b.config.capBytes) (max b.floors.evictFloor b.capFloor)
    omega
  · omega

/-- The floors lie within the head, and the slots between the base and the head. -/
structure Framed (b : TopicState) : Prop where
  tail : b.index.tail = b.headSeq + 1
  seqBase : b.seqBase ≤ b.index.baseSeq
  top : b.floors.top ≤ b.headSeq

namespace Framed

variable (h : b.Framed)

include h

theorem append (stored : List StoredRecord) : (b.append stored).Framed := by
  have hhead := append_headSeq h.tail stored
  refine ⟨?_, ?_, ?_⟩
  · rw [append_index, tail_pushAll, hhead, h.tail]
    omega
  · rw [append_seqBase, append_index, pushAll_baseSeq]
    exact h.seqBase
  · rw [append_floors, hhead]
    exact h.top.trans (Nat.le_add_right _ _)

theorem commitFloors (now : Int) : (b.commitFloors (b.planRetention now)).Framed := by
  obtain ⟨hevict, hexpiry⟩ := planRetention_le_headSeq h.tail h.top now
  have htop := h.top
  rw [commitFloors_eq]
  refine { h with top := ?_ }
  unfold Floors.top at htop ⊢
  simp only
  omega

theorem deleteSelected {boundHead : Option Nat} (hbound : ∀ n ∈ boundHead, n ≤ b.headSeq + 1)
    (hbelow : b.index.deleteBelow ≤ b.headSeq + 1) (beforeSeq : Option Nat)
    (match_ : Option Filter) : (b.deleteSelected beforeSeq match_ boundHead).Framed := by
  have hsteady := steady_deleteSelected b beforeSeq match_ boundHead
  refine ⟨hsteady.tail.trans h.tail, h.seqBase.trans hsteady.base, ?_⟩
  have htop := h.top
  have hpit : boundHead.getD (b.headSeq + 1) ≤ b.headSeq + 1 := by
    cases boundHead with
    | none => exact le_rfl
    | some n => exact hbound n rfl
  unfold Floors.top at htop ⊢
  simp only [TopicState.deleteSelected, markAll_deleteBelow]
  cases match_ <;> cases beforeSeq <;> simp only <;> omega

theorem reclaimFront : (b.reclaimFront b.headSeq).Framed := by
  have hsteady := steady_reclaimFront b b.headSeq
  exact ⟨hsteady.tail.trans h.tail, h.seqBase.trans hsteady.base, h.top⟩

theorem settled_reclaimFront : (b.reclaimFront b.headSeq).Settled := by
  have htail := h.tail
  have htop := h.top
  unfold Settled
  rw [reclaimFront_floors, reclaimFront_baseSeq]
  have hfloors : b.floors.top + 1 ≤ b.floors.earliestSeq b.seqBase b.headSeq := by
    unfold Floors.earliestSeq
    omega
  unfold reclaimCount
  unfold TopicIndex.tail at htail
  simp only
  omega

end Framed
namespace Plain

variable {b : TopicState} (h : b.Plain)

include h

theorem setConfig (config : TopicConfig) : { b with config := config }.Plain :=
  { h with }

theorem setReserved (n : Nat) : { b with reservedHead := n }.Plain :=
  { h with }

theorem top_eq : b.floors.top = max b.floors.evictFloor b.floors.expiryFloor := by
  unfold Floors.top
  rw [h.deleteFloor, h.sourceTrim, Nat.max_zero, Nat.max_zero]

theorem live_eq_get (s : Nat) : b.index.live s = b.index.get s := by
  unfold live
  cases hg : b.index.get s with
  | none => rfl
  | some r =>
    rw [Option.filter_some, h.whole r (mem_records_of_get hg)]
    rfl

theorem append {records : List StoredRecord} (hr : ∀ r ∈ records, r.deleted = false) :
    (b.append records).Plain := by
  have hhead := append_headSeq h.tail records
  refine ⟨?_, ?_, ?_, ?_, ?_, ?_, ?_, ?_, ?_, ?_⟩
  · rw [append_index, tail_pushAll, hhead, h.tail]
    omega
  · rw [append_seqBase, h.seqBase]
  · rw [append_index, pushAll_baseSeq]
    exact h.base
  · rw [append_index, append_floors, pushAll_baseSeq]
    exact h.base_le
  · rw [append_floors, hhead]
    exact h.top_le.trans (Nat.le_add_right _ _)
  · rw [append_floors, h.deleteFloor]
  · rw [append_floors, h.sourceTrim]
  · rw [append_index, pushAll_records]
    intro r hmem
    exact (mem_append.mp hmem).elim (h.whole r) (hr r)
  · rw [append_liveCount, append_index, pushAll_records, h.count, length_append]
  · rw [append_bytesRetained, append_index, pushAll_records, h.bytes, map_append,
      sum_append]

theorem earliestSeq_floors : b.floors.earliestSeq b.seqBase b.headSeq = b.floors.top + 1 := by
  have := h.top_le
  have := h.seqBase
  unfold Floors.earliestSeq seqBaseDefault at *
  omega

theorem reclaimCount_eq : b.reclaimCount b.headSeq = b.floors.top + 1 - b.index.baseSeq := by
  have htail := h.tail
  have htop := h.top_le
  have hnone : ∀ n, (b.index.records.drop n).takeWhile (·.deleted) = [] := by
    intro n
    rw [takeWhile_eq_nil_iff]
    intro hpos
    have hmem : (b.index.records.drop n)[0] ∈ b.index.records :=
      mem_of_mem_drop (getElem_mem hpos)
    exact eq_false_iff.mp (h.whole _ hmem)
  unfold reclaimCount
  simp only [h.earliestSeq_floors, hnone, length_nil, Nat.add_zero]
  unfold TopicIndex.tail at htail
  omega

theorem reclaimFront : (b.reclaimFront b.headSeq).Plain := by
  have hbase := h.base_le
  have htail := h.tail
  have hst := steady_reclaimFront b b.headSeq
  have hlen := reclaimCount_le_length b b.headSeq
  have hn := reclaimFront_records b b.headSeq
  refine ⟨?_, hst.seqBase.trans h.seqBase, h.base.trans hst.base, ?_, ?_, h.deleteFloor,
    h.sourceTrim, ?_, ?_, ?_⟩
  · rw [hst.tail, hst.headSeq, htail]
  · rw [reclaimFront_floors, reclaimFront_baseSeq, h.reclaimCount_eq]
    omega
  · rw [reclaimFront_floors, hst.headSeq]
    exact h.top_le
  · rw [hn]
    exact fun r hr => h.whole r (mem_of_mem_drop hr)
  · -- every popped slot was live
    have hpop : (b.index.records.take (b.reclaimCount b.headSeq)).countP (fun r => !r.deleted) =
        b.reclaimCount b.headSeq := by
      rw [countP_eq_length.mpr, length_take, min_eq_left hlen]
      intro r hr
      rw [h.whole r (mem_of_mem_take hr)]
      rfl
    rw [hn, length_drop]
    change b.liveCount - (b.index.records.take (min _ _)).countP _ = _
    rw [min_eq_left hlen, hpop, h.count]
  · have hsplit : (b.index.records.map (·.bytes)).sum =
        ((b.index.records.take (b.reclaimCount b.headSeq)).map (·.bytes)).sum +
          ((b.index.records.drop (b.reclaimCount b.headSeq)).map (·.bytes)).sum := by
      rw [← sum_append, ← map_append, take_append_drop]
    rw [hn]
    change b.bytesRetained - ((b.index.records.take _).map (·.bytes)).sum = _
    rw [h.bytes, hsplit]
    omega

theorem framed : b.Framed := ⟨h.tail, h.seqBase.trans_le h.base, h.top_le⟩

theorem planRetention_le (now : Int) :
    (b.planRetention now).evictFloor ≤ b.headSeq ∧
      (b.planRetention now).expiryFloor ≤ b.headSeq :=
  planRetention_le_headSeq h.tail h.top_le now

theorem raiseFloors {evictFloor expiryFloor : Nat} (hev : evictFloor ≤ b.headSeq)
    (hexp : expiryFloor ≤ b.headSeq) (hle : b.floors.evictFloor ≤ evictFloor)
    (hle' : b.floors.expiryFloor ≤ expiryFloor) :
    { b with floors :=
      { b.floors with evictFloor := evictFloor, expiryFloor := expiryFloor } }.Plain := by
  have htop := h.top_le
  have hbase := h.base_le
  refine { h with base_le := ?_, top_le := ?_ }
  · unfold Floors.top at hbase ⊢
    simp only
    omega
  · unfold Floors.top at htop ⊢
    simp only
    omega

theorem commitFloors (now : Int) : (b.commitFloors (b.planRetention now)).Plain := by
  rw [commitFloors_eq]
  exact h.raiseFloors (h.planRetention_le now).1 (h.planRetention_le now).2
    (evictFloor_le_planRetention b now) (expiryFloor_le_planRetention b now)

theorem enforceRetention (now : Int) : (b.enforceRetention now).Plain := by
  unfold TopicState.enforceRetention
  split
  · exact h
  · have hc := (h.commitFloors now).reclaimFront
    rw [(steady_commitFloors b _).headSeq] at hc
    exact hc

theorem settled_enforceRetention (now : Int) (hs : b.retentionIdle = true → b.Settled) :
    (b.enforceRetention now).Settled := by
  unfold TopicState.enforceRetention
  split
  · rename_i hidle
    exact hs hidle
  · have hc := (h.commitFloors now).framed.settled_reclaimFront
    rw [(steady_commitFloors b _).headSeq] at hc
    exact hc

theorem reclaimFront_of_top_zero (htop : b.floors.top = 0) : b.reclaimFront b.headSeq = b := by
  have hcount : b.reclaimCount b.headSeq = 0 := by
    have hbase := h.base
    unfold seqBaseDefault at hbase
    rw [h.reclaimCount_eq, htop]
    omega
  unfold TopicState.reclaimFront drainFront
  simp only [hcount, Nat.zero_min, take_zero, drop_zero, map_nil, sum_nil,
    countP_nil, Nat.sub_zero, Nat.add_zero]
  rfl

theorem enforceRetention_eq_self {now : Int} (htop : (b.enforceRetention now).floors.top = 0) :
    b.enforceRetention now = b := by
  by_cases hidle : b.retentionIdle = true
  · exact enforceRetention_of_idle hidle now
  · have hidle := eq_false_iff.mpr hidle
    have hzero : b.floors.top = 0 :=
      Nat.le_zero.mp (htop ▸ (floors_le_enforceRetention b now).top)
    rw [enforceRetention_floors hidle] at htop
    have hev : (b.planRetention now).evictFloor = b.floors.evictFloor := by
      unfold Floors.top at htop hzero
      simp only at htop
      omega
    have hexp : (b.planRetention now).expiryFloor = b.floors.expiryFloor := by
      unfold Floors.top at htop hzero
      simp only at htop
      omega
    have hcommit : b.commitFloors (b.planRetention now) = b := by
      rw [commitFloors_eq, hev, hexp]
    unfold TopicState.enforceRetention
    rw [hidle, if_neg Bool.false_ne_true, hcommit]
    exact h.reclaimFront_of_top_zero hzero

end Plain

theorem Settled.top_lt_of_live (hs : b.Settled) (hq : b.index.live q = some r) : b.floors.top < q :=
  hs.trans_le (base_le_of_get (live_eq_some.mp hq).1)

end TopicState

end Topics
