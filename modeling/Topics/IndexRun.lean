import Topics.Accounts
import Topics.Retention
import Topics.WritePath

/-!
# The representation of the index

A `TopicState` keeps its records in a deque, their tags in posting lists, two counters and four floors
beside it.  Batches are staged behind the head, where a failed one stays as a run of holes; a delete or
a retention pass pops the front.
-/

namespace Topics

open Lib TopicState TopicIndex List Option

/-! ## Operations -/

structure IndexRun where
  topic : TopicState
  line : List StagedBatch
  /-- History: the highest seq assigned and not cut off the tail. -/
  highest : Nat

inductive IndexOp where
  | stage (stored : List StoredRecord)
  /-- A stage, and the `rollback_staged` directly behind it. -/
  | unstage (stored : List StoredRecord)
  | publish
  | rollback
  | delete (beforeSeq : Option Nat) (match_ : Option Filter) (boundHead : Option Nat) (now : Int)
  | deleteSeqs (seqs : List Nat)
  | retain (now : Int)
  | reclaim (head : Nat)

namespace IndexRun

/-- Fresh records are not deleted, the oldest batch is published or rolled back, and what is deleted
lies at most at the head. -/
def step (s : IndexRun) : IndexOp → Option IndexRun
  | .stage stored =>
    if ∀ r ∈ stored, r.deleted = false then
      some
        { topic := (s.topic.stageAppend stored).1
          line := s.line ++ [((s.topic.stageAppend stored).2, stored)]
          highest := if stored = [] then s.highest else (s.topic.stageAppend stored).2.publishHead }
    else none
  | .unstage stored =>
    if ∀ r ∈ stored, r.deleted = false then
      some { s with topic :=
        (s.topic.stageAppend stored).1.rollbackStaged (s.topic.stageAppend stored).2 }
    else none
  | .publish =>
    match s.line with
    | [] => none
    | e :: line => some { s with topic := s.topic.publishStagedNoSeal e.1, line := line }
  | .rollback =>
    match s.line with
    | [] => none
    | e :: line => some { s with topic := s.topic.rollbackStagedBySeqs e.1, line := line }
  | .delete beforeSeq match_ boundHead now =>
    if ∀ n ∈ boundHead, n ≤ s.topic.headSeq + 1 then
      some { s with topic := s.topic.applyDelete beforeSeq match_ boundHead now }
    else none
  | .deleteSeqs seqs =>
    if ∀ q ∈ seqs, q ≤ s.topic.headSeq then some { s with topic := s.topic.deleteSeqs seqs }
    else none
  | .retain now => some { s with topic := s.topic.enforceRetention now }
  | .reclaim head =>
    if head ≤ s.topic.headSeq then some { s with topic := s.topic.reclaimFront head } else none

def start (spec : TopicSpec) : IndexRun := ⟨spec.fresh, [], 0⟩

end IndexRun

namespace TopicState

/-- The slot at the front, if the head has passed it, is not deleted and above the floors. -/
def FrontClean (b : TopicState) : Prop :=
  b.index.baseSeq ≤ b.headSeq → ∀ r ∈ b.index.records.head?,
    r.deleted = false ∧ b.floors.top < b.index.baseSeq

end TopicState

theorem frontClean_reclaimFront (b : TopicState) : (b.reclaimFront b.headSeq).FrontClean := by
  intro hbase r hr
  refine ⟨front_reclaimFront b b.headSeq r hr, ?_⟩
  have hlen := length_pos_of_mem (mem_of_mem_head? hr)
  change _ ≤ b.headSeq at hbase
  change b.floors.top < _
  rw [reclaimFront_records, length_drop] at hlen
  rw [reclaimFront_baseSeq] at hbase ⊢
  unfold reclaimCount Floors.earliestSeq at *
  simp only at *
  omega

/-! ## Runs -/

def IndexOp.trims : IndexOp → Bool
  | .delete .. | .deleteSeqs _ | .retain _ => true
  | _ => false

/-- A retention pass that returns early finds the front clean. -/
def IndexRun.Cleared (s : IndexRun) : IndexOp → Prop
  | .retain _ => s.topic.retentionIdle = true → s.topic.FrontClean
  | _ => True

namespace IndexRun

variable {s s' : IndexRun} {op : IndexOp} {ops : List IndexOp}

structure Inv (s : IndexRun) : Prop where
  balanced : Balanced s.line s.topic
  tail : s.topic.index.tail = s.highest + 1

theorem Inv.step (h : Inv s) (hstep : step s op = some s') : Inv s' := by
  have htail := h.tail
  cases op with
  | stage stored =>
    obtain ⟨hlive, ⟨⟩⟩ := ite_none_right_eq_some.mp hstep
    refine ⟨h.balanced.stage hlive, ?_⟩
    have hpush : (s.topic.stageAppend stored).1.index.tail = s.topic.index.tail + stored.length :=
      tail_pushAll ..
    simp only [hpush]
    split
    · simp_all
    · rename_i hne
      have := length_pos_iff.mpr hne
      change _ = s.topic.index.tail + stored.length - 1 + 1
      omega
  | unstage stored =>
    obtain ⟨hlive, ⟨⟩⟩ := ite_none_right_eq_some.mp hstep
    obtain ⟨tags, heq, hbalanced⟩ := h.balanced.unstage hlive
    exact ⟨heq ▸ hbalanced, heq ▸ htail⟩
  | publish =>
    obtain ⟨e, line, hline, rfl⟩ : ∃ e line, s.line = e :: line ∧
        s' = { s with topic := s.topic.publishStagedNoSeal e.1, line := line } := by
      cases hline : s.line <;> simp_all [IndexRun.step]
    exact ⟨(hline ▸ h.balanced).publish, (publishStagedNoSeal_index s.topic e.1).symm ▸ htail⟩
  | rollback =>
    obtain ⟨e, line, hline, rfl⟩ : ∃ e line, s.line = e :: line ∧
        s' = { s with topic := s.topic.rollbackStagedBySeqs e.1, line := line } := by
      cases hline : s.line <;> simp_all [IndexRun.step]
    exact ⟨(hline ▸ h.balanced).rollback, (tail_markAll ..).trans htail⟩
  | delete beforeSeq match_ boundHead now =>
    obtain ⟨hbound, ⟨⟩⟩ := ite_none_right_eq_some.mp hstep
    exact ⟨h.balanced.applyDelete hbound beforeSeq match_ now, (steady_applyDelete ..).tail.trans htail⟩
  | deleteSeqs seqs =>
    obtain ⟨hseqs, ⟨⟩⟩ := ite_none_right_eq_some.mp hstep
    exact ⟨h.balanced.deleteSeqs hseqs, (steady_deleteSeqs ..).tail.trans htail⟩
  | retain now =>
    cases hstep
    exact ⟨h.balanced.enforceRetention now, (steady_enforceRetention ..).tail.trans htail⟩
  | reclaim head =>
    obtain ⟨hhead, ⟨⟩⟩ := ite_none_right_eq_some.mp hstep
    exact ⟨h.balanced.reclaimFront hhead, (tail_reclaimFront ..).trans htail⟩

theorem frontClean_iff (hstep : step s op = some s') (htrims : op.trims = true) :
    s'.topic.FrontClean ↔ s.Cleared op := by
  cases op with
  | delete beforeSeq match_ boundHead now =>
    obtain ⟨-, ⟨⟩⟩ := ite_none_right_eq_some.mp hstep
    exact iff_of_true (frontClean_reclaimFront _) trivial
  | deleteSeqs seqs =>
    obtain ⟨-, ⟨⟩⟩ := ite_none_right_eq_some.mp hstep
    exact iff_of_true (frontClean_reclaimFront (s.topic.markSeqs seqs)) trivial
  | retain now =>
    cases hstep
    simp only [Cleared, enforceRetention]
    split
    · rename_i hidle
      simp [hidle]
    · rename_i hidle
      rw [← (steady_commitFloors s.topic (s.topic.planRetention now)).headSeq]
      exact iff_of_true (frontClean_reclaimFront _) (absurd · hidle)
  | _ => cases htrims

/-- The batch of seq 1 fails while that of seq 2 waits behind it. -/
def failedFirst : List IndexOp :=
  [.stage [.plain none], .stage [.plain none], .rollback, .publish]

end IndexRun

end Topics
