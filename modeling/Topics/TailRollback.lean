import Topics.AppendStream
import Topics.DeadRecords

/-!
# Cutting a refused batch off the tail

When the WAL refuses a staged batch, `rollback_staged` truncates the deque to the length it had
before the stage.  The batch is under `append_lock`, but retention passes, deletes and acks are
not: they pop slots off the front, and the length remembered at the stage is then too long.
-/

namespace Topics

open Lib TopicState TopicIndex List

variable {Blob : Type}

theorem TopicState.shrinks_rollbackStaged (b : TopicState) (g : StagedAppend) :
    b.Shrinks (b.rollbackStaged g) := by
  intro q r hr
  unfold rollbackStaged at hr
  split at hr
  · exact hr
  · obtain ⟨hget, hdel⟩ := live_eq_some.mp hr
    rw [get_truncate] at hget
    split at hget
    · exact live_eq_some.mpr ⟨hget, hdel⟩
    · cases hget

namespace WritePath

variable {S : Serde Blob} {spec : TopicSpec} {s s' : WritePath Blob} {a : WriteAction}
  {as : List WriteAction}

/-! ## One step -/

theorem shrinks_rollbackBatch (s : WritePath Blob) (rest : List Ticket) (g : StagedAppend) :
    s.topic.Shrinks (s.rollbackBatch rest g).topic :=
  .of_live_ite fun q => live_markAll s.topic.index g.seqs q

theorem shrinks_commitPass (b : TopicState) (plan : TopicState.RetentionAdvance) (head : Nat) :
    b.Shrinks (commitPass b plan head) :=
  (shrinks_commitFloors b plan).trans (shrinks_reclaimFront _ head)

theorem shrinks_of_takeTurn (h : s.takeTurn spec = some s') : s.topic.Shrinks s'.topic := by
  unfold takeTurn at h
  split at h
  · split at h
    · split at h <;> cases h
      exact .of_index (publishStagedNoSeal_index _ _)
    · cases h
      exact shrinks_rollbackBatch s _ _
    · cases h
      exact shrinks_applyDelete s.topic _ _ _ _
    · cases h
      exact .refl _
    · cases h
  · cases h

theorem shrinks_of_step (ha : step S spec s a = some s') (hstage : ∀ l, a ≠ .stage l)
    (hcrash : ∀ k p n, a ≠ .crash k p n) : s.topic.Shrinks s'.topic := by
  cases a with
  | stage records => exact absurd rfl (hstage records)
  | crash k p n => exact absurd rfl (hcrash k p n)
  | publish => exact shrinks_of_takeTurn ha
  | wal b =>
    obtain ⟨w, -, rfl⟩ := Option.map_eq_some_iff.mp ha
    exact .refl _
  | retain now =>
    cases ha
    unfold retainNow
    split
    · exact .refl _
    · simp only
      split
      · exact .refl _
      · exact shrinks_commitPass s.topic _ _
  | deleteSeqs seqs =>
    cases ha
    exact shrinks_deleteSeqs s.topic seqs
  | enqueueFail =>
    simp only [step] at ha
    split at ha <;> cases ha
    exact shrinks_rollbackStaged s.topic _
  | reserveRefused =>
    simp only [step] at ha
    split at ha <;> cases ha
    exact shrinks_rollbackBatch s _ _
  | reserved =>
    simp only [step] at ha
    split at ha
    · split at ha <;> cases ha
      · exact .of_index (publishStagedNoSeal_index _ _)
      · exact shrinks_rollbackBatch s _ _
    · cases ha
  | retained i =>
    simp only [step] at ha
    split at ha
    · cases ha
    · split at ha <;> cases ha
      · exact shrinks_commitPass s.topic _ _
      · exact .refl _
  | enqueue | submitDelete | reserve | logDeleteSeqs =>
    simp only [step] at ha
    split at ha <;> cases ha
    exact .refl _

/-- **Where a live slot comes from.** -/
theorem live_of_step (ha : step S spec s a = some s') (hcrash : ∀ k p n, a ≠ .crash k p n)
    {q : Nat} {r : StoredRecord} (hr : s'.topic.index.live q = some r) :
    s.topic.index.live q = some r ∨ ∃ records, a = .stage records ∧ r ∈ records := by
  by_cases hstage : ∀ l, a ≠ .stage l
  · exact .inl (shrinks_of_step ha hstage hcrash q r hr)
  · obtain ⟨records, rfl⟩ : ∃ l, a = .stage l := by simpa using hstage
    simp only [step] at ha
    split at ha <;> cases ha
    change (s.topic.index.pushAll records).live q = some r at hr
    rw [live_pushAll] at hr
    split at hr
    · exact .inl hr
    · exact .inr ⟨records, rfl, mem_of_getElem? (Option.filter_eq_some_iff.mp hr).1⟩

theorem live_of_exec {q : Nat} {r : StoredRecord} (hcrash : ∀ a ∈ as, ∀ k p n, a ≠ .crash k p n)
    (hrun : exec (step S spec) s as = some s') (hr : s'.topic.index.live q = some r) :
    s.topic.index.live q = some r ∨ ∃ records, .stage records ∈ as ∧ r ∈ records := by
  induction as generalizing s with
  | nil =>
    cases hrun
    exact .inl hr
  | cons a as ih =>
    obtain ⟨s₁, ha, hrun⟩ := (exec_cons_eq_some _).mp hrun
    rcases ih (fun b hb => hcrash b (mem_cons_of_mem _ hb)) hrun with hlive | ⟨l, hl, hmem⟩
    · rcases live_of_step ha (hcrash a mem_cons_self) hlive with hlive | ⟨l, rfl, hmem⟩
      · exact .inl hlive
      · exact .inr ⟨l, mem_cons_self, hmem⟩
    · exact .inr ⟨l, mem_cons_of_mem _ hl, hmem⟩

/-! ## The rollback -/

theorem get_rollbackStaged (h : Base S spec s) {records : List StoredRecord} {g : StagedAppend}
    (hl : s.locked = some (records, g)) (hfront : FrontKept s) (q : Nat) :
    (s.topic.rollbackStaged g).index.get q =
      if q ∈ g.seqs then none else s.topic.index.get q := by
  obtain ⟨-, hpos, -, htail⟩ := h.locked records g hl
  have hlen : s.topic.index.records.length = g.preLen + g.count := hfront _ hl
  have hcut : s.topic.index.baseSeq + g.preLen = g.start := by
    unfold TopicIndex.tail at htail
    omega
  unfold rollbackStaged
  rw [if_neg (by omega)]
  simp only [get_truncate, hcut, StagedAppend.seqs, mem_range'_1]
  by_cases hlow : q < g.start
  · rw [if_pos hlow, if_neg (by omega)]
  · rw [if_neg hlow]
    split
    · rfl
    · -- behind the batch there was no slot
      cases hget : s.topic.index.get q with
      | none => rfl
      | some r =>
        have := lt_tail_of_get hget
        omega

/-- **The tail rollback.**  In every run, if the front of the deque is where it was at the stage
when the WAL refuses the batch, no slot of the batch is left and every other slot is as it was;
and whatever is live at a seq of the batch later on, up to a restart, was staged later. -/
theorem rollback_exact (hrun : exec (step S spec) (init spec) as = some s)
    {records : List StoredRecord} {g : StagedAppend} (hl : s.locked = some (records, g))
    (hfail : step S spec s .enqueueFail = some s') (hfront : FrontKept s) :
    (∀ q ∈ g.seqs, s'.topic.index.get q = none) ∧
      (∀ q, q ∉ g.seqs → s'.topic.index.get q = s.topic.index.get q) ∧
      s'.topic.headSeq = s.topic.headSeq ∧
      ∀ later s'', (∀ a ∈ later, ∀ k p n, a ≠ .crash k p n) →
        exec (step S spec) s' later = some s'' → ∀ q ∈ g.seqs, ∀ r,
          s''.topic.index.live q = some r → ∃ l, .stage l ∈ later ∧ r ∈ l := by
  have hbase : Base S spec s := exec_invariant _ (fun _ _ _ h ha => h.step ha) Base.init hrun
  have hslots := get_rollbackStaged hbase hl hfront
  simp only [step, hl] at hfail
  cases hfail
  refine ⟨fun q hq => ?_, fun q hq => ?_, rollbackStaged_headSeq _ g, ?_⟩
  · rw [hslots, if_pos hq]
  · rw [hslots, if_neg hq]
  · intro later s'' hcrash hlater q hq r hr
    refine (live_of_exec hcrash hlater hr).resolve_left fun hlive => ?_
    have hget := (live_eq_some.mp hlive).1
    rw [hslots, if_pos hq] at hget
    cases hget

def oneWrite : List WriteAction :=
  [.stage [.plain none], .enqueue 0, .wal (.write 1), .wal .finish, .publish]

theorem rollback_exact_oneWrite :
    ∃ s s', exec (step Serde.identity (.ofClass .fsync)) (init (.ofClass .fsync))
        (oneWrite ++ [.stage [.plain (some "a")]]) = some s ∧
      step Serde.identity (.ofClass .fsync) s .enqueueFail = some s' ∧
      s'.topic.index.get 2 = none ∧ s'.topic.index.get 1 = s.topic.index.get 1 := by
  have hrun : exec (step Serde.identity (.ofClass .fsync)) (init (.ofClass .fsync))
    (oneWrite ++ [.stage [.plain (some "a")]]) = some _ := rfl
  obtain ⟨hnone, hsame, -⟩ := rollback_exact hrun rfl rfl (by decide +kernel)
  exact ⟨_, _, hrun, rfl, hnone 2 (by decide +kernel), hsame 1 (by decide +kernel)⟩

/-- **A refused record becomes visible.**  The record at seq 1 is acknowledged and popped while the
batch of seq 2 is staged: the deque is no longer than before the stage, so nothing is cut off.  The
next write gets seq 3 and moves the head over the record nobody acknowledged. -/
theorem rollback_leaves_slot :
    ∃ s, exec (step Serde.identity (.ofClass .fsync)) (init (.ofClass .fsync))
        (oneWrite ++ [.stage [.plain (some "a")], .deleteSeqs [1], .enqueueFail] ++ oneWrite) = some s ∧
      s.topic.headSeq = 3 ∧ s.published.map Prod.fst = [1, 3] ∧
      (s.topic.index.live 2).map (·.tag) = some (some "a") :=
  ⟨_, rfl, by decide +kernel, by decide +kernel, by decide +kernel⟩

end WritePath

end Topics
