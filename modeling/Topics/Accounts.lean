import Topics.Replay

/-!
# What the counters of a topic count

`live_count` and `bytes_retained` are kept beside the deque, and so are the postings of the tags.
Batches are staged behind the head, where a failed one stays as a run of holes.
-/

namespace Topics

open TopicState TopicIndex List Option

/-! ## Slots -/

def slotBytes (rs : List StoredRecord) : Nat := (rs.map (·.bytes)).sum

def TopicIndex.liveSlots (ix : TopicIndex) : List StoredRecord := ix.records.filter (!·.deleted)

namespace TopicState

/-- How many slots are published; the slots behind them are staged. -/
def published (b : TopicState) : Nat := b.headSeq + 1 - b.index.baseSeq

def staged (b : TopicState) : List StoredRecord := b.index.records.drop b.published

/-- The slots up to the head that are not deleted. -/
def visible (b : TopicState) : List StoredRecord :=
  (b.index.records.take b.published).filter (!·.deleted)

end TopicState

section Slots

variable {ix : TopicIndex} {seqs : List Nat} {rs : List StoredRecord} {k : Nat}

theorem slotBytes_append (rs rs' : List StoredRecord) :
    slotBytes (rs ++ rs') = slotBytes rs + slotBytes rs' := by
  simp [slotBytes]

theorem forall_markAll {P : StoredRecord → Prop} (h : ∀ r ∈ ix.records, P r)
    (hmark : ∀ r : StoredRecord, P r.markDeleted) (seqs : List Nat) :
    ∀ r ∈ (markAll ix seqs).1.records, P r := by
  refine markAll_induct (P := fun ix => ∀ r ∈ ix.records, P r) seqs h fun ix q hix => ?_
  unfold markDeleted
  split
  · exact hix
  split
  · exact hix
  intro r hr
  rcases mem_or_eq_of_mem_set hr with hr | rfl
  · exact hix r hr
  · exact hmark _

theorem getElem?_records (ix : TopicIndex) (i : Nat) : ix.records[i]? = ix.get (ix.baseSeq + i) := by
  rw [TopicIndex.get, if_neg (by omega), Nat.add_sub_cancel_left]

theorem getElem?_markAll {i : Nat} (h : ix.baseSeq + i ∉ seqs) :
    (markAll ix seqs).1.records[i]? = ix.records[i]? := by
  rw [markAll_fst]
  induction seqs generalizing ix with
  | nil => rfl
  | cons q seqs ih =>
    have hne := ne_of_not_mem_cons h
    rw [foldl_cons, ih (by simpa using not_mem_of_not_mem_cons h), getElem?_records,
      markDeleted_baseSeq, get_markDeleted_of_ne ix hne, getElem?_records]

theorem take_markAll (h : ∀ q ∈ seqs, ix.baseSeq + k ≤ q) :
    (markAll ix seqs).1.records.take k = ix.records.take k := by
  refine ext_getElem? fun i => ?_
  rw [getElem?_take, getElem?_take]
  split
  · exact getElem?_markAll fun hq => by have := h _ hq; omega
  · rfl

theorem drop_markAll (h : ∀ q ∈ seqs, q < ix.baseSeq + k) :
    (markAll ix seqs).1.records.drop k = ix.records.drop k := by
  refine ext_getElem? fun i => ?_
  rw [getElem?_drop, getElem?_drop]
  exact getElem?_markAll fun hq => by have := h _ hq; omega

theorem slotBytes_filter (h : ∀ r ∈ rs, r.deleted = true → r.bytes = 0) :
    slotBytes (rs.filter (!·.deleted)) = slotBytes rs := by
  induction rs with
  | nil => rfl
  | cons r rs ih =>
    have hrest := ih fun r' hr' => h r' (mem_cons_of_mem r hr')
    cases hdel : r.deleted with
    | false => simp_all [slotBytes]
    | true => simp_all [slotBytes, h r mem_cons_self hdel]

theorem filter_deleted (h : ∀ r ∈ rs, r.deleted = true) : rs.filter (!·.deleted) = [] :=
  filter_eq_nil_iff.mpr fun r hr => by simp [h r hr]

theorem liveSlots_eq (b : TopicState) :
    b.index.liveSlots = b.visible ++ b.staged.filter (!·.deleted) := by
  rw [visible, staged, ← filter_append, take_append_drop, liveSlots]

theorem liveSlots_markDeleted (ix : TopicIndex) (q : Nat) :
    (ix.markDeleted q).1.liveSlots.length + (ix.markDeleted q).2.toList.length =
        ix.liveSlots.length ∧
      slotBytes (ix.markDeleted q).1.liveSlots + (ix.markDeleted q).2.getD 0 =
        slotBytes ix.liveSlots := by
  unfold markDeleted
  split
  · exact ⟨rfl, rfl⟩
  rename_i r hr
  split
  · exact ⟨rfl, rfl⟩
  rename_i hlive
  have hb := base_le_of_get hr
  unfold TopicIndex.get at hr
  rw [if_neg (by omega)] at hr
  obtain ⟨hlt, rfl⟩ := List.getElem?_eq_some_iff.mp hr
  -- the slots in front of the deleted one and behind it stay
  have hsplit := congrArg (filter (!·.deleted))
    (take_append_drop (q - ix.baseSeq) ix.records)
  rw [drop_eq_getElem_cons hlt, filter_append, filter_cons_of_pos (by simpa using hlive)]
    at hsplit
  unfold liveSlots
  rw [← hsplit]
  simp [slotBytes, set_eq_take_append_cons_drop, hlt]
  omega

/-- **The counts of a delete** are those of the live slots that are gone. -/
theorem liveSlots_markAll (ix : TopicIndex) (seqs : List Nat) :
    (markAll ix seqs).1.liveSlots.length + (markAll ix seqs).2.2 = ix.liveSlots.length ∧
      slotBytes (markAll ix seqs).1.liveSlots + (markAll ix seqs).2.1 = slotBytes ix.liveSlots := by
  unfold markAll
  refine foldlRecOn seqs _ (motive := fun x : TopicIndex × Nat × Nat =>
    x.1.liveSlots.length + x.2.2 = ix.liveSlots.length ∧
      slotBytes x.1.liveSlots + x.2.1 = slotBytes ix.liveSlots) ⟨rfl, rfl⟩ fun x hx q _ => ?_
  obtain ⟨ix', freed, deleted⟩ := x
  obtain ⟨hlen, hbytes⟩ := hx
  obtain ⟨hlen', hbytes'⟩ := liveSlots_markDeleted ix' q
  rcases hmark : ix'.markDeleted q with ⟨ix'', _ | g⟩ <;>
    simp only [hmark, toList_none, toList_some, getD_none, getD_some,
      length_nil, length_singleton] at hlen hbytes hlen' hbytes' ⊢ <;>
    omega

end Slots

theorem TopicState.lt_of_mem_deleteVictims {b : TopicState} {bound q : Nat} {match_ : Option Filter}
    (h : q ∈ b.deleteVictims bound match_) : q < bound := by
  cases match_ with
  | none =>
    have hrange := (mem_filter.mp h).1
    rw [mem_range'_1] at hrange
    omega
  | some f =>
    have hsort := (perm_insertionSort (· ≤ ·) _).mem_iff.mp h
    exact of_decide_eq_true (mem_filter.mp hsort).2

/-! ## Batches in line -/

abbrev StagedBatch := StagedAppend × List StoredRecord

/-- The batches lie one behind the other up to the tail. -/
def Queued (tail : Nat) : Nat → List StagedBatch → Prop
  | pos, [] => pos = tail
  | pos, (g, rs) :: line =>
    (g.start = pos ∧ g.count = rs.length ∧ g.addedBytes = slotBytes rs ∧
      ∀ r ∈ rs, r.deleted = false) ∧ Queued tail (pos + rs.length) line

def batchRecords (line : List StagedBatch) : List StoredRecord := line.flatMap Prod.snd

structure Balanced (line : List StagedBatch) (b : TopicState) : Prop where
  tags : b.index.TagExact
  freed : ∀ r ∈ b.index.records, r.deleted = true → r.tag = none ∧ r.bytes = 0
  head : b.headSeq < b.index.tail
  laid : ∃ pos, Queued b.index.tail pos line
  staged : ∃ holes, b.staged = holes ++ batchRecords line ∧ ∀ r ∈ holes, r.deleted = true
  count : b.liveCount = b.visible.length
  bytes : b.bytesRetained = slotBytes b.visible

section

variable {line : List StagedBatch} {rs : List StoredRecord} {tail pos : Nat}

theorem Queued.tail_eq (h : Queued tail pos line) : pos + (batchRecords line).length = tail := by
  induction line generalizing pos with
  | nil => exact h
  | cons e line ih =>
    have := ih h.2
    simp only [batchRecords, flatMap_cons, length_append] at this ⊢
    omega

theorem Queued.live (h : Queued tail pos line) : ∀ r ∈ batchRecords line, r.deleted = false := by
  induction line generalizing pos with
  | nil => exact forall_mem_nil _
  | cons e line ih => exact forall_mem_append.mpr ⟨h.1.2.2.2, ih h.2⟩

theorem Queued.concat (h : Queued tail pos line) {g : StagedAppend} (hg : g.start = tail)
    (hcount : g.count = rs.length) (hbytes : g.addedBytes = slotBytes rs)
    (hlive : ∀ r ∈ rs, r.deleted = false) : Queued (tail + rs.length) pos (line ++ [(g, rs)]) := by
  induction line generalizing pos with
  | nil =>
    obtain rfl : pos = tail := h
    exact ⟨⟨hg, hcount, hbytes, hlive⟩, rfl⟩
  | cons e line ih => exact ⟨h.1, ih h.2⟩

end

/-! ### One operation -/

namespace Balanced

theorem new (name : String) (topicId : Nat) (config : TopicConfig) :
    Balanced [] (TopicState.new name topicId config seqBaseDefault) :=
  ⟨TagExact.new _, forall_mem_nil _, Nat.zero_lt_one, ⟨_, rfl⟩, ⟨[], rfl, forall_mem_nil _⟩, rfl, rfl⟩

variable {line : List StagedBatch} {b : TopicState} {stored : List StoredRecord}

section

variable (h : Balanced line b)

include h

theorem published_le : b.published ≤ b.index.records.length := by
  have := h.head
  unfold published TopicIndex.tail at *
  omega

theorem marks {seqs : List Nat} (hseqs : ∀ q ∈ seqs, q ≤ b.headSeq) (below : Nat) (floors : Floors) :
    Balanced line { b with
      index := { (markAll b.index seqs).1 with deleteBelow := below }
      bytesRetained := b.bytesRetained - (markAll b.index seqs).2.1
      liveCount := b.liveCount - (markAll b.index seqs).2.2
      floors := floors } := by
  generalize hb' : ({ b with index := _, bytesRetained := _, liveCount := _, floors := _ } : TopicState)
    = b'
  have hpub : b'.published = b.published := by
    rw [← hb', published, published, markAll_baseSeq]
  have hstaged : b'.staged = b.staged := by
    rw [TopicState.staged, hpub, ← hb']
    refine drop_markAll fun q hq => ?_
    have := hseqs q hq
    unfold published
    omega
  have htail : b'.index.tail = b.index.tail := hb' ▸ tail_markAll b.index seqs
  obtain ⟨hlen, hsum⟩ := liveSlots_markAll b.index seqs
  rw [show (markAll b.index seqs).1.liveSlots = b'.index.liveSlots from hb' ▸ rfl, liveSlots_eq,
    liveSlots_eq, hstaged] at hlen hsum
  simp only [length_append, slotBytes_append] at hlen hsum
  refine ⟨hb' ▸ tagExact_markAll h.tags seqs, ?_, ?_, htail ▸ h.laid, hstaged ▸ h.staged, ?_, ?_⟩
  · rw [← hb']
    exact forall_markAll (P := fun r => r.deleted = true → _) h.freed (fun _ _ => ⟨rfl, rfl⟩) seqs
  · rw [htail, ← hb']
    exact h.head
  · have hcount : b'.liveCount = b.liveCount - (markAll b.index seqs).2.2 := hb' ▸ rfl
    rw [hcount, h.count]
    omega
  · have hbytes : b'.bytesRetained = b.bytesRetained - (markAll b.index seqs).2.1 := hb' ▸ rfl
    rw [hbytes, h.bytes]
    omega

theorem reclaimFront {head : Nat} (hhead : head ≤ b.headSeq) : Balanced line (b.reclaimFront head) := by
  obtain ⟨pos, hlaid⟩ := h.laid
  obtain ⟨holes, hstaged, hholes⟩ := h.staged
  have hlen := h.published_le
  have hle := reclaimCount_le_length b head
  have hpub : (b.reclaimFront head).published = b.published - b.reclaimCount head := by
    change b.headSeq + 1 - (b.reclaimFront head).index.baseSeq = _
    rw [reclaimFront_baseSeq, published]
    omega
  -- behind the head only holes are popped
  have hpop : b.reclaimCount head - b.published ≤ holes.length := by
    by_contra hlt
    obtain ⟨r, hr⟩ : ∃ r, b.staged[holes.length]? = some r :=
      ⟨_, getElem?_eq_getElem (by rw [TopicState.staged, length_drop]; omega)⟩
    have hlive : r.deleted = false := by
      rw [hstaged, getElem?_append_right le_rfl] at hr
      exact hlaid.live r (mem_of_getElem? hr)
    rw [TopicState.staged, getElem?_drop, getElem?_records] at hr
    have hearly : b.floors.earliestSeq b.seqBase head ≤ head + 1 := min_le_right _ _
    have hfront : b.index.baseSeq + (b.published + holes.length) <
        b.index.baseSeq + b.reclaimCount head := by omega
    have hdel := deleted_of_reclaimed (by unfold published; omega) hfront hr
    rw [hlive] at hdel
    cases hdel
  have hbehind : (b.reclaimFront head).staged =
      holes.drop (b.reclaimCount head - b.published) ++ batchRecords line := by
    rw [TopicState.staged, reclaimFront_records, hpub, drop_drop, show b.reclaimCount head +
      (b.published - b.reclaimCount head) = b.published + (b.reclaimCount head - b.published) by omega,
      ← drop_drop, ← drop_append_of_le_length hpop, ← hstaged, TopicState.staged]
  have hvisible : b.visible = (b.index.records.take (b.reclaimCount head)).filter (!·.deleted) ++
      (b.reclaimFront head).visible := by
    have hgone : ((b.index.records.drop b.published).take
        (b.reclaimCount head - b.published)).filter (!·.deleted) = [] := by
      rw [← TopicState.staged, hstaged, take_append_of_le_length hpop]
      exact filter_deleted fun r hr => hholes r (mem_of_mem_take hr)
    rw [visible, visible, reclaimFront_records, hpub, ← filter_append, ← take_add, ← append_nil (filter ..),
      ← hgone, ← filter_append, ← take_add]
    congr 2
    omega
  refine ⟨tagExact_reclaimFront h.tags head, fun r hr => h.freed r (mem_of_mem_drop hr), ?_, ?_,
    ⟨_, hbehind, fun r hr => hholes r (mem_of_mem_drop hr)⟩, ?_, ?_⟩
  · rw [tail_reclaimFront]
    exact h.head
  · rw [tail_reclaimFront]
    exact h.laid
  · change b.liveCount - countP _ (b.index.records.take (min _ _)) = _
    rw [min_eq_left hle, h.count, hvisible, length_append, countP_eq_length_filter]
    omega
  · change b.bytesRetained - slotBytes (b.index.records.take _) = _
    rw [h.bytes, hvisible, slotBytes_append,
      slotBytes_filter fun r hr hdel => (h.freed r (mem_of_mem_take hr) hdel).2]
    omega

theorem commitFloors (plan : TopicState.RetentionAdvance) : Balanced line (b.commitFloors plan) := by
  unfold TopicState.commitFloors
  split
  · exact { h with }
  · exact h

theorem enforceRetention (now : Int) : Balanced line (b.enforceRetention now) := by
  unfold TopicState.enforceRetention
  split
  · exact h
  · rw [← (steady_commitFloors b (b.planRetention now)).headSeq]
    exact (h.commitFloors _).reclaimFront le_rfl

theorem deleteSelected {boundHead : Option Nat} (hbound : ∀ n ∈ boundHead, n ≤ b.headSeq + 1)
    (beforeSeq : Option Nat) (match_ : Option Filter) :
    Balanced line (b.deleteSelected beforeSeq match_ boundHead) := by
  refine h.marks (fun q hq => ?_) _ _
  have hlt := lt_of_mem_deleteVictims hq
  have hle := deleteBound_le beforeSeq (boundHead.getD (b.headSeq + 1))
  have hpit : boundHead.getD (b.headSeq + 1) ≤ b.headSeq + 1 := by
    cases boundHead with
    | none => exact le_rfl
    | some n => exact hbound n rfl
  omega

theorem applyDelete {boundHead : Option Nat} (hbound : ∀ n ∈ boundHead, n ≤ b.headSeq + 1)
    (beforeSeq : Option Nat) (match_ : Option Filter) (now : Int) :
    Balanced line (b.applyDelete beforeSeq match_ boundHead now) := by
  refine ((h.enforceRetention now).deleteSelected ?_ beforeSeq match_).reclaimFront le_rfl
  rwa [(steady_enforceRetention b now).headSeq]

theorem deleteSeqs {seqs : List Nat} (hseqs : ∀ q ∈ seqs, q ≤ b.headSeq) :
    Balanced line (b.deleteSeqs seqs) :=
  (h.marks hseqs _ _).reclaimFront le_rfl

theorem stage (hlive : ∀ r ∈ stored, r.deleted = false) :
    Balanced (line ++ [((b.stageAppend stored).2, stored)]) (b.stageAppend stored).1 := by
  obtain ⟨pos, hlaid⟩ := h.laid
  obtain ⟨holes, hstaged, hholes⟩ := h.staged
  have hrecords : (b.stageAppend stored).1.index.records = b.index.records ++ stored :=
    pushAll_records ..
  have htail : (b.stageAppend stored).1.index.tail = b.index.tail + stored.length := tail_pushAll ..
  have hpub : (b.stageAppend stored).1.published = b.published := by
    unfold published stageAppend
    rw [pushAll_baseSeq]
  have hvisible : (b.stageAppend stored).1.visible = b.visible := by
    rw [visible, hrecords, hpub, take_append_of_le_length h.published_le, visible]
  have hdead : ∀ r ∈ stored, r.deleted = true → r.tag = none ∧ r.bytes = 0 := fun r hr hdel => by
    rw [hlive r hr] at hdel
    cases hdel
  refine ⟨h.tags.pushAll fun r hr hdel => (hdead r hr hdel).1, ?_, ?_, ⟨pos, ?_⟩, ⟨holes, ?_, hholes⟩,
    h.count.trans (by rw [hvisible]), h.bytes.trans (by rw [hvisible])⟩
  · rw [hrecords]
    exact forall_mem_append.mpr ⟨h.freed, hdead⟩
  · rw [htail]
    exact h.head.trans_le (Nat.le_add_right _ _)
  · rw [htail]
    exact hlaid.concat rfl rfl rfl hlive
  · rw [TopicState.staged, hrecords, hpub, drop_append_of_le_length h.published_le,
      ← TopicState.staged, hstaged, append_assoc]
    simp [batchRecords]

theorem unstage (hlive : ∀ r ∈ stored, r.deleted = false) :
    ∃ tags, (b.stageAppend stored).1.rollbackStaged (b.stageAppend stored).2 =
        { b with index := { b.index with tagIndex := tags } } ∧
      Balanced line { b with index := { b.index with tagIndex := tags } } := by
  unfold TopicState.rollbackStaged
  split
  · rename_i hzero
    obtain rfl := eq_nil_of_length_eq_zero hzero
    exact ⟨_, rfl, h⟩
  · have hpush : (b.index.pushAll stored).TagExact := (h.stage hlive).tags
    obtain ⟨tags, hcut⟩ : ∃ tags, (b.index.pushAll stored).truncate b.index.records.length =
        { b.index with tagIndex := tags } :=
      ⟨((b.index.pushAll stored).truncate b.index.records.length).tagIndex, by simp [TopicIndex.truncate]⟩
    exact ⟨tags, congrArg (fun ix => { b with index := ix }) hcut,
      { h with tags := hcut ▸ hpush.truncate (by simp) }⟩

end

theorem start_eq {g : StagedAppend} {rs : List StoredRecord} {pos : Nat} {holes : List StoredRecord}
    (h : Balanced ((g, rs) :: line) b) (hlaid : Queued b.index.tail pos ((g, rs) :: line))
    (hstaged : b.staged = holes ++ batchRecords ((g, rs) :: line)) :
    pos = b.index.baseSeq + (b.published + holes.length) := by
  have hlen := congrArg length hstaged
  have htail := hlaid.tail_eq
  have hle := h.published_le
  rw [TopicState.staged, length_drop, length_append] at hlen
  unfold TopicIndex.tail at htail
  omega

theorem publish {e : StagedBatch} (h : Balanced (e :: line) b) : Balanced line (b.publishStagedNoSeal e.1) := by
  obtain ⟨g, rs⟩ := e
  obtain ⟨pos, hpos⟩ := h.laid
  obtain ⟨holes, hstaged, hholes⟩ := h.staged
  have hstart := h.start_eq hpos hstaged
  obtain ⟨⟨hg, hcount, hbytes, hlive⟩, hlaid⟩ := hpos
  have hrest := hlaid.tail_eq
  unfold publishStagedNoSeal
  split
  · rename_i hzero
    obtain rfl := eq_nil_of_length_eq_zero (hcount.symm.trans hzero)
    exact { h with laid := ⟨pos, hlaid⟩, staged := ⟨holes, hstaged, hholes⟩ }
  · rename_i hzero
    have hpos : 0 < rs.length := hcount ▸ Nat.pos_of_ne_zero hzero
    generalize hb' : ({ b with headSeq := _, bytesRetained := _, liveCount := _ } : TopicState) = b'
    have hindex : b'.index = b.index := hb' ▸ rfl
    have hhead : b'.headSeq = pos + rs.length - 1 := by
      rw [← hb', ← hg, ← hcount]
      rfl
    have hpub : b'.published = b.published + (holes.length + rs.length) := by
      rw [published, hhead, hindex]
      omega
    have hbehind : b'.staged = batchRecords line := by
      rw [TopicState.staged, hindex, hpub, ← drop_drop, ← TopicState.staged, hstaged]
      simp [batchRecords, drop_append]
    have hvisible : b'.visible = b.visible ++ rs := by
      have hnew : (b.index.records.drop b.published).take (holes.length + rs.length) = holes ++ rs := by
        rw [← TopicState.staged, hstaged]
        simp [batchRecords, take_append]
      have hkept : rs.filter (!·.deleted) = rs := filter_eq_self.mpr fun r hr => by simp [hlive r hr]
      rw [visible, hindex, hpub, take_add, hnew, filter_append, filter_append, filter_deleted hholes,
        nil_append, hkept, visible]
    refine ⟨hindex ▸ h.tags, hindex ▸ h.freed, ?_, ⟨_, hindex ▸ hlaid⟩,
      ⟨[], hbehind, forall_mem_nil _⟩, ?_, ?_⟩
    · rw [hhead, hindex]
      omega
    · rw [hvisible, length_append, ← h.count, ← hcount, ← hb']
    · rw [hvisible, slotBytes_append, ← h.bytes, ← hbytes, ← hb']

theorem rollback {e : StagedBatch} (h : Balanced (e :: line) b) : Balanced line (b.rollbackStagedBySeqs e.1) := by
  obtain ⟨g, rs⟩ := e
  obtain ⟨pos, hpos⟩ := h.laid
  obtain ⟨holes, hstaged, hholes⟩ := h.staged
  have hstart := h.start_eq hpos hstaged
  obtain ⟨⟨hg, hcount, -, -⟩, hlaid⟩ := hpos
  have hseqs : ∀ q, q ∈ g.seqs ↔ pos ≤ q ∧ q < pos + rs.length := fun q => by
    rw [StagedAppend.seqs, mem_range'_1, hg, hcount]
  have htail : (b.rollbackStagedBySeqs g).index.tail = b.index.tail := tail_markAll ..
  have hbase : (b.rollbackStagedBySeqs g).index.baseSeq = b.index.baseSeq := markAll_baseSeq ..
  have hpub : (b.rollbackStagedBySeqs g).published = b.published := by
    rw [published, hbase]
    rfl
  have hvisible : (b.rollbackStagedBySeqs g).visible = b.visible := by
    rw [visible, hpub, visible]
    exact congrArg _ (take_markAll fun q hq => by have := (hseqs q).mp hq; omega)
  refine ⟨tagExact_markAll h.tags _, ?_, htail ▸ h.head, ⟨_, htail ▸ hlaid⟩,
    ⟨(b.rollbackStagedBySeqs g).staged.take (holes.length + rs.length), ?_, ?_⟩,
    hvisible ▸ h.count, hvisible ▸ h.bytes⟩
  · exact forall_markAll (P := fun r => r.deleted = true → _) h.freed (fun _ _ => ⟨rfl, rfl⟩) _
  · have hback : (b.rollbackStagedBySeqs g).staged.drop (holes.length + rs.length) =
        b.staged.drop (holes.length + rs.length) := by
      rw [TopicState.staged, hpub, TopicState.staged, drop_drop, drop_drop]
      exact drop_markAll fun q hq => by have := (hseqs q).mp hq; omega
    rw [hstaged] at hback
    refine (take_append_drop (holes.length + rs.length) _).symm.trans (congrArg _ (hback.trans ?_))
    simp [batchRecords, drop_append]
  · intro r hr
    obtain ⟨i, hi⟩ := mem_iff_getElem?.mp hr
    rw [getElem?_take] at hi
    obtain ⟨hlt, hi⟩ := ite_none_right_eq_some.mp hi
    rw [TopicState.staged, hpub, getElem?_drop, getElem?_records, hbase] at hi
    by_contra hdel
    -- a slot that is not deleted was live before and is no slot of the batch
    have hlive : (markAll b.index g.seqs).1.live _ = some r :=
      live_eq_some.mpr ⟨hi, eq_false_of_ne_true hdel⟩
    rw [live_markAll] at hlive
    obtain ⟨hout, hlive⟩ := ite_none_left_eq_some.mp hlive
    have hold := (live_eq_some.mp hlive).1
    rw [hseqs] at hout
    rw [← getElem?_records, ← getElem?_drop, ← TopicState.staged, hstaged,
      getElem?_append_left (by omega)] at hold
    exact hdel (hholes r (mem_of_getElem? hold))

end Balanced

end Topics
