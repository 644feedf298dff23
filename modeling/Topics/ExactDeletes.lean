import Topics.RejectTopics
import Topics.SelectorDelete

/-!
# What a delete removes and reports

`apply_delete_stats` marks slots that the tag index or a walk from a computed floor finds, raises a
watermark, and pops the front.  The slots it pops are dead, unless a source-trim hole has raised a
floor above slots that no retention pass has popped.
-/

namespace Topics

open TopicIndex TopicState List Option

/-! ## The counts -/

namespace TopicState

structure DeleteStats where
  deleted : Nat
  bytesFreed : Nat
  deriving DecidableEq

/-- What `reclaim_front` returns. -/
def frontFreed (b : TopicState) (head : Nat) : Nat :=
  slotBytes (b.index.records.take (b.reclaimCount head))

/-- `bytes_reclaimed` of a retention pass. -/
def bytesReclaimed (b : TopicState) (now : Int) : Nat :=
  if b.retentionIdle then 0 else (b.commitFloors (b.planRetention now)).frontFreed b.headSeq

/-- What `apply_delete_stats` returns. -/
def applyDeleteStats (b : TopicState) (beforeSeq : Option Nat) (match_ : Option Filter)
    (boundHead : Option Nat) (now : Int) : DeleteStats :=
  let reclaimed := b.bytesReclaimed now
  let b := b.enforceRetention now
  let marked := markAll b.index
    (b.deleteVictims (deleteBound beforeSeq (boundHead.getD (b.headSeq + 1))) match_)
  { deleted := marked.2.2
    bytesFreed :=
      reclaimed + marked.2.1 + (b.deleteSelected beforeSeq match_ boundHead).frontFreed b.headSeq }

end TopicState

def TopicIndex.Freed (ix : TopicIndex) : Prop := ∀ r ∈ ix.records, r.deleted = true → r.bytes = 0

theorem TopicIndex.Freed.markAll {ix : TopicIndex} (h : ix.Freed) (seqs : List Nat) :
    (markAll ix seqs).1.Freed :=
  forall_markAll (P := fun r => r.deleted = true → _) h (fun _ _ => rfl) seqs

/-! ## Between operations -/

namespace TopicState

variable {b : TopicState} {beforeSeq boundHead : Option Nat} {match_ : Option Filter}

/-- The states of a topic whose operations run one after another: writes, retention passes, deletes
by selector, the deletes of acks, and what leaves the records alone. -/
inductive Sequential : TopicState → Prop where
  | fresh (spec : TopicSpec) : Sequential spec.fresh
  | aside {b : TopicState} (h : Sequential b) (config : TopicConfig)
      (queue : Option QueueProjection) (reserved : Nat) :
      Sequential { b with config := config, queue := queue, reservedHead := reserved }
  | append {b : TopicState} (h : Sequential b) {stored : List StoredRecord}
      (hstored : ∀ r ∈ stored, r.deleted = false) : Sequential (b.append stored)
  | retain {b : TopicState} (h : Sequential b) (now : Int) : Sequential (b.enforceRetention now)
  | delete {b : TopicState} (h : Sequential b) {boundHead : Option Nat}
      (hbound : ∀ n ∈ boundHead, n ≤ b.headSeq + 1) (beforeSeq : Option Nat)
      (match_ : Option Filter) (now : Int) :
      Sequential (b.applyDelete beforeSeq match_ boundHead now)
  | ack {b : TopicState} (h : Sequential b) (seqs : List Nat) : Sequential (b.deleteSeqs seqs)

/-- What holds of the slots in every such state. -/
structure Booked (b : TopicState) : Prop extends Framed b where
  settled : b.Settled
  tags : b.index.TagExact
  freed : b.index.Freed
  below : b.index.deleteBelow ≤ b.floors.deleteFloor + 1

theorem booked_reclaimFront (hframed : b.Framed) (htags : b.index.TagExact)
    (hfreed : b.index.Freed) (hbelow : b.index.deleteBelow ≤ b.floors.deleteFloor + 1) :
    Booked (b.reclaimFront b.headSeq) where
  toFramed := hframed.reclaimFront
  settled := hframed.settled_reclaimFront
  tags := tagExact_reclaimFront htags _
  freed r hr := hfreed r (mem_of_mem_drop hr)
  below := hbelow

section

variable (h : Booked b)

include h

theorem Booked.enforceRetention (now : Int) : Booked (b.enforceRetention now) := by
  unfold TopicState.enforceRetention
  split
  · exact h
  · have hframed := h.toFramed.commitFloors now
    rw [commitFloors_eq] at hframed ⊢
    exact booked_reclaimFront hframed h.tags h.freed h.below

theorem Booked.append {stored : List StoredRecord} (hstored : ∀ r ∈ stored, r.deleted = false) :
    Booked (b.append stored) := by
  have hlive : ∀ r ∈ stored, r.deleted ≠ true := fun r hr => by simp [hstored r hr]
  refine ⟨h.toFramed.append stored, ?_, ?_, fun r hr hdel => ?_, ?_⟩
  · unfold Settled
    rw [append_floors, append_index, pushAll_baseSeq]
    exact h.settled
  · rw [append_index]
    exact h.tags.pushAll fun r hr hdel => absurd hdel (hlive r hr)
  · rw [append_index, pushAll_records] at hr
    exact (mem_append.mp hr).elim (fun hr => h.freed r hr hdel) fun hr => absurd hdel (hlive r hr)
  · rw [append_index, pushAll_deleteBelow, append_floors]
    exact h.below

theorem Booked.deleted (beforeSeq : Option Nat) (match_ : Option Filter)
    (hbound : ∀ n ∈ boundHead, n ≤ b.headSeq + 1) :
    Booked ((b.deleteSelected beforeSeq match_ boundHead).reclaimFront b.headSeq) := by
  have hbelow := h.below
  have htop := h.top
  unfold Floors.top at htop
  refine booked_reclaimFront (b := b.deleteSelected beforeSeq match_ boundHead)
    (h.toFramed.deleteSelected hbound (by omega) beforeSeq match_)
    (tagExact_deleteSelected h.tags _ _ _) (h.freed.markAll _) ?_
  unfold deleteSelected
  simp only
  omega

end

theorem Sequential.booked (h : Sequential b) : Booked b := by
  induction h with
  | fresh spec => exact ⟨⟨tail_new _, le_rfl, Nat.zero_le _⟩, settled_new .., TagExact.new _,
      forall_mem_nil _, Nat.zero_le _⟩
  | aside _ config queue reserved ih =>
    exact ⟨⟨ih.tail, ih.seqBase, ih.top⟩, ih.settled, ih.tags, ih.freed, ih.below⟩
  | append _ hstored ih => exact ih.append hstored
  | retain _ now ih => exact ih.enforceRetention now
  | delete _ hbound beforeSeq match_ now ih =>
    refine (ih.enforceRetention now).deleted _ _ ?_
    rwa [(steady_enforceRetention _ now).headSeq]
  | @ack b _ seqs ih =>
    have hsteady := steady_markSeqs b seqs
    exact booked_reclaimFront ⟨hsteady.tail.trans ih.tail, ih.seqBase.trans hsteady.base, ih.top⟩
      (tagExact_markAll ih.tags seqs) (ih.freed.markAll seqs) (by simp [markSeqs, ih.below])

/-! ## One delete -/

section

variable (h : Booked b)

include h

theorem mem_victims_iff {q : Nat} {r : StoredRecord} (hr : b.index.live q = some r) (bound : Nat) :
    q ∈ b.deleteVictims bound match_ ↔ q < bound ∧ takesTag match_ r.tag = true := by
  have hsettled : b.floors.top < b.index.baseSeq := h.settled
  have hbase := base_le_of_get (live_eq_some.mp hr).1
  have hge := Floors.earliestSeq_le_of_top_lt (h.seqBase.trans hbase)
    (hsettled.trans_le hbase) b.headSeq
  rw [mem_deleteVictims_iff h.tags]
  refine and_congr_right fun _ => ⟨?_, fun htag => ⟨fun _ => hge, r, hr, htag⟩⟩
  rintro ⟨-, r', hr', htag⟩
  rw [hr] at hr'
  cases hr'
  exact htag

theorem live_deleteSelected_of_lt {q : Nat} (hq : q <
      (b.deleteSelected beforeSeq match_ boundHead).floors.earliestSeq b.seqBase b.headSeq) :
    (b.deleteSelected beforeSeq match_ boundHead).index.live q = none := by
  rw [live_deleteSelected]
  split
  · rfl
  · rename_i hno
    cases hr : b.index.live q with
    | none => rfl
    | some r =>
      refine absurd ?_ hno
      have hsettled : b.floors.top < b.index.baseSeq := h.settled
      have hbase := base_le_of_get (live_eq_some.mp hr).1
      have hbelow := h.below
      have hseqBase := h.seqBase
      refine (mem_victims_iff h hr _).mpr ?_
      unfold deleteSelected Floors.earliestSeq Floors.top at hq
      unfold Floors.top at hsettled
      simp only [markAll_deleteBelow] at hq
      unfold deleteBound
      -- without a filter the watermark stops at the bound, with one it stays where it was
      cases match_ <;> cases beforeSeq <;> simp only [takesTag, and_true] at hq ⊢ <;> omega

end

/-- **A front reclaim** below whose floor all is dead pops dead slots only. -/
theorem deleted_of_popped {head : Nat}
    (hdead : ∀ q < b.floors.earliestSeq b.seqBase head, b.index.live q = none) :
    ∀ r ∈ b.index.records.take (b.reclaimCount head), r.deleted = true := by
  intro r hr
  obtain ⟨i, hi⟩ := mem_iff_getElem?.mp hr
  rw [getElem?_take] at hi
  obtain ⟨hlt, hi⟩ := ite_none_right_eq_some.mp hi
  have hget : b.index.get (b.index.baseSeq + i) = some r := by
    rwa [← getElem?_records]
  by_cases hq : b.index.baseSeq + i < b.floors.earliestSeq b.seqBase head
  · have hnone := hdead _ hq
    unfold live at hnone
    rw [hget] at hnone
    simpa using hnone
  · exact deleted_of_reclaimed (not_lt.mp hq) (by omega) hget

theorem liveSlots_reclaimFront {head : Nat}
    (hdead : ∀ q < b.floors.earliestSeq b.seqBase head, b.index.live q = none) :
    (b.reclaimFront head).index.liveSlots = b.index.liveSlots := by
  have hpopped : (b.index.records.take (b.reclaimCount head)).filter (!·.deleted) = [] :=
    filter_eq_nil_iff.mpr fun r hr => by simp [deleted_of_popped hdead r hr]
  have hsplit := congrArg (filter (!·.deleted))
    (take_append_drop (b.reclaimCount head) b.index.records)
  rw [filter_append, hpopped, nil_append] at hsplit
  unfold liveSlots
  rw [reclaimFront_records]
  exact hsplit

theorem frontFreed_eq_zero {head : Nat} (hfreed : b.index.Freed)
    (hdead : ∀ q < b.floors.earliestSeq b.seqBase head, b.index.live q = none) :
    b.frontFreed head = 0 := by
  refine sum_eq_zero fun n hn => ?_
  obtain ⟨r, hr, rfl⟩ := mem_map.mp hn
  exact hfreed r (mem_of_mem_take hr) (deleted_of_popped hdead r hr)

/-- **What a delete does** to the topic `b` that its retention pass leaves. -/
structure ExactDelete (b b' : TopicState) (bound : Nat) (match_ : Option Filter) (reclaimed : Nat)
    (stats : DeleteStats) : Prop where
  live : ∀ q, b'.index.live q =
    (b.index.live q).filter fun r => !(decide (q < bound) && takesTag match_ r.tag)
  postings : ∀ t q, q ∈ b'.index.tagIndex.getD t [] ↔
    q ∈ b.index.tagIndex.getD t [] ∧ (b'.index.live q).isSome = true
  involuntary : b'.floors = { b.floors with deleteFloor := b'.floors.deleteFloor }
  silent : match_ ≠ none → b'.floors.deleteFloor = b.floors.deleteFloor
  deleted : stats.deleted + b'.index.liveSlots.length = b.index.liveSlots.length
  bytesFreed : stats.bytesFreed + slotBytes b'.index.liveSlots =
    reclaimed + slotBytes b.index.liveSlots

def twoTags : TopicState :=
  (TopicSpec.mk "t" 1 {} 0).fresh.append
    (["a", "b"].map fun tag => { StoredRecord.plain (some tag) with bytes := 1 })

end TopicState

end Topics
