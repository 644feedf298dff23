import Topics.AppendStream

/-!
# A `disk` topic across any number of crashes

Every crash of a `disk` topic may cut the log anywhere behind its synced part; recovery pads
the head of the topic up to the highest surviving watermark and the next run goes on from
there.  The padding is never logged.  If the next run appends, its frames start behind a gap
that a later replay does not cross.
-/

namespace Topics

namespace WritePath

open Lib CommitLog TopicState List Option

variable {Blob : Type} {S : Serde Blob} {spec : TopicSpec}

/-- The condition under which every surviving `Append` comes back: a run that started from a
padded head appends nothing, batches with `Append` frames do not fail, and a batch the WAL
refuses is truncated only while the front of the deque is where it was. -/
def appendsInOrder (s : WritePath Blob) : WriteAction → Bool
  | .stage _ => !s.padded
  | .wal (.writeFail k) => ∀ f ∈ CommitLog.framesOf (s.wal.queue.take k), f.appendSeq? = none
  | .wal .syncFail => ∀ f ∈ CommitLog.framesOf (s.wal.writing.getD []), f.appendSeq? = none
  | .enqueueFail => FrontKept s
  | _ => true

structure Continuous (S : Serde Blob) (spec : TopicSpec) (s : WritePath Blob) : Prop
    extends Base S spec s where
  noFailed : NoFailedAppend s.wal
  gapless : ∃ k, appendSeqs s.wal.stream = List.range' 1 k
  numbered : s.padded = false → Numbered s
  idle : s.padded = true → s.locked = none

theorem Continuous.init : Continuous S spec (init spec) where
  toBase := Base.init
  noFailed _ h := by cases h
  gapless := ⟨0, rfl⟩
  numbered _ := ⟨0, rfl, TopicIndex.tail_new seqBaseDefault⟩
  idle h := by cases h

/-! ## Steps of a running topic -/

variable {s s' : WritePath Blob} {a : WriteAction}

theorem noFailed_step (h : NoFailedAppend s.wal) (ha : step S spec s a = some s')
    (hcrash : ∀ k p n, a ≠ .crash k p n) (hcond : appendsInOrder s a = true) :
    NoFailedAppend s'.wal := by
  rcases wal_of_step ha hcrash with ⟨frames, d, hw⟩ | hw | ⟨b, rfl, hb⟩
  · rw [hw]
    exact h
  · rw [hw]
    exact h
  · unfold NoFailedAppend
    cases (effect_of_step hb).1 with
    | idle k hc hs hp hd | leave picks sync hp hc hd =>
      unfold failedFrames
      rw [hd]
      exact h
    | commit batch rest hp hp' hc hd hw hs =>
      rw [failedFrames_of_settle hd]
      exact h
    | fail b batch rest hp hp' hc hd hs hb' =>
      have hbatch : ∀ f ∈ framesOf batch, f.appendSeq? = none := by
        rcases hb' with ⟨k, rfl, rfl⟩ | ⟨rfl, hw⟩
        · exact of_decide_eq_true hcond
        · have := of_decide_eq_true hcond
          rw [hw] at this
          exact this
      rw [failedFrames_of_settle hd]
      intro f hf
      rcases mem_append.mp hf with hf | hf
      · exact hbatch f hf
      · exact h f hf

theorem padded_locked_step (ha : step S spec s a = some s') (hcrash : ∀ k p n, a ≠ .crash k p n) :
    s'.padded = s.padded ∧ ((∃ records, a = .stage records) ∨ s'.locked = none ∨
      s'.locked = s.locked) := by
  cases move_of_step ha with
  | stage records => exact ⟨rfl, Or.inl ⟨records, rfl⟩⟩
  | enqueue | enqueueFail => exact ⟨rfl, Or.inr (Or.inl rfl)⟩
  | crash keep picks now => exact absurd rfl (hcrash keep picks now)
  | control | reserve | wal | publish | remove => exact ⟨rfl, Or.inr (Or.inr rfl)⟩

theorem Continuous.run (h : Continuous S spec s) (ha : WritePath.step S spec s a = some s')
    (hcrash : ∀ k p n, a ≠ .crash k p n) (hcond : appendsInOrder s a = true) :
    Continuous S spec s' := by
  have hfront : a = .enqueueFail → FrontKept s := by
    rintro rfl
    exact of_decide_eq_true hcond
  have hno := noFailed_step h.noFailed ha hcrash hcond
  obtain ⟨hpad, hlock⟩ := padded_locked_step ha hcrash
  refine ⟨h.toBase.step ha, hno, ?_, ?_, ?_⟩
  · obtain ⟨_, n, hseqs, _, hzero⟩ := appendSeqs_stream_step h.toBase ha hcrash hfront hno
    cases hp : s.padded with
    | false =>
      obtain ⟨k, hk, _⟩ := (h.numbered hp).step h.toBase ha hcrash hfront hno
      exact ⟨k, hk⟩
    | true =>
      -- nothing is staged, so nothing is enqueued
      obtain ⟨k, hk⟩ := h.gapless
      rw [hzero (h.idle hp)] at hseqs
      exact ⟨k, hseqs.trans ((append_nil _).trans hk)⟩
  · intro hp
    exact (h.numbered (hpad ▸ hp)).step h.toBase ha hcrash hfront hno
  · intro hp
    have hp' : s.padded = true := hpad ▸ hp
    rcases hlock with ⟨records, rfl⟩ | hnone | hsame
    · simp [appendsInOrder, hp'] at hcond
    · exact hnone
    · exact hsame.trans (h.idle hp')

/-! ## Crash and recovery -/

theorem Continuous.survivors (h : Continuous S spec s) (keep : Nat) (picks : List Nat) :
    ∃ m, appendSeqs (s.wal.survivors keep picks) = List.range' 1 m := by
  obtain ⟨k, hk⟩ := h.gapless
  have hgarbage : appendSeqs (s.wal.garbage picks) = [] :=
    appendSeqs_eq_nil fun f hf => h.noFailed f (mem_failedFrames_of_mem_garbage hf)
  have hpre : s.wal.log.take keep <+: s.wal.stream := by
    rw [stream_eq]
    exact ( take_prefix _ _).trans (prefix_append _ _)
  obtain ⟨m, hm⟩ := appendSeqs_of_prefix hpre hk
  refine ⟨m, ?_⟩
  unfold CommitLog.survivors
  rw [appendSeqs_append, hgarbage, append_nil, hm]

section

variable (hS : S.RoundTrips) (hper : spec.config.usesPersistentRecordStore = true)
  (h : Continuous S spec s)

include hS hper h

theorem Continuous.restart {keep : Nat} {picks : List Nat} {now : Int} {topic : TopicState}
    (hbase : Base S spec (s.restart S spec now (s.wal.survivors keep picks) topic))
    (hrec : spec.recover S now (s.wal.survivors keep picks) = some topic) :
    Continuous S spec (s.restart S spec now (s.wal.survivors keep picks) topic) := by
  obtain ⟨m, hm⟩ := h.survivors keep picks
  have hstream : (s.restart S spec now (s.wal.survivors keep picks) topic).wal.stream =
      s.wal.survivors keep picks := append_nil _
  refine ⟨hbase, nofun, ⟨m, by rw [hstream, hm]⟩, ?_, fun _ => rfl⟩
  intro hpads
  refine ⟨m, by rw [hstream, hm], ?_⟩
  have hsound : spec.fresh.Sound := sound_new hper
  have haddr := h.addressed.survivors keep picks
  have hhead : (spec.fresh.replayAll S (s.wal.survivors keep picks)).headSeq = 0 + m :=
    headSeq_replayAll_of_range S hsound hm
  have hnot := (TopicSpec.pads_eq hS spec now haddr).symm.trans hpads
  rw [TopicSpec.recover_eq hS spec now haddr, some.injEq] at hrec
  subst hrec
  change TopicIndex.tail (applyHeadWatermark _).index = m + 1
  rw [tail_applyHeadWatermark (hsound.replayAll S _).dense,
    applyHeadWatermark_headSeq, max_eq_left (not_lt.mp (of_decide_eq_false hnot)),
    hhead, Nat.zero_add]

/-- **Every step keeps the invariant, crashes included.** -/
theorem Continuous.step (ha : WritePath.step S spec s a = some s')
    (hcond : appendsInOrder s a = true) : Continuous S spec s' := by
  by_cases hcrash : ∃ k p n, a = .crash k p n
  · obtain ⟨k, p, n, rfl⟩ := hcrash
    have hbase := h.toBase.step ha
    obtain ⟨topic, hrec, rfl⟩ := map_eq_some_iff.mp (ite_none_right_eq_some.mp ha).2
    exact h.restart hS hper hbase hrec
  · exact h.run ha (fun k p n hk => hcrash ⟨k, p, n, hk⟩) hcond

end

end WritePath

end Topics
