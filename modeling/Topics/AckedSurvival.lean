import Topics.AppendStream

/-!
# Acknowledged `fsync` writes across a crash

A write of an `fsync` topic is acknowledged once its frames are synced, so after a crash they
are in the log.  Whether replay admits them is another matter: a failed batch leaves holes in
the seq space of the topic but no frames in the log, and replay stops at the first missing
seq.
-/

namespace Topics

open List Option

/-- The actions of `Engine::write` calls and of the WAL writer under them. -/
def WriteAction.isWrite : WriteAction → Bool
  | .submitDelete .. | .logDeleteSeqs .. | .deleteSeqs _ | .crash .. => false
  | _ => true

namespace WritePath

open Lib

variable {Blob : Type} {S : Serde Blob} {spec : TopicSpec}

/-- The condition under which writes survive.  `Append` frames are committed only while no
batch with `Append` frames has failed, and a batch the WAL refuses is truncated only while
the front of the deque is where it was when the batch was staged. -/
def commitsInOrder (s : WritePath Blob) : WriteAction → Bool
  | .wal .finish =>
    NoFailedAppend s.wal ∨
      ∀ f ∈ CommitLog.framesOf (s.wal.writing.getD []), f.appendSeq? = none
  | .enqueueFail => FrontKept s
  | _ => true

/-- The invariant; `pre` is the part of the log that replay is sure to admit. -/
structure Sheltered (S : Serde Blob) (spec : TopicSpec) (pre : List (WalRecord Blob))
    (s : WritePath Blob) : Prop extends Base S spec s where
  noDelete : s.wal.AllFrames fun f => f.isDelete = false
  within : pre <+: s.wal.committed
  gapless : ∃ m, appendSeqs pre = List.range' 1 m
  settled : ∀ e ∈ s.wal.settled, e.2 = true → ∀ f ∈ e.1.frames, f.appendSeq? ≠ none → f ∈ pre
  clean : NoFailedAppend s.wal → pre = s.wal.committed ∧ Numbered s
  published : ∀ p ∈ s.published, ∃ now,
    appendFrame S spec.topicId now p.1 p.2 ∈ pre ∧
      appendFrame S spec.topicId now p.1 p.2 ∈ s.wal.committed.take s.wal.synced

theorem Sheltered.init : Sheltered S spec [] (init spec) where
  toBase := Base.init
  noDelete := CommitLog.AllFrames.reopen nofun
  within := nil_prefix
  gapless := ⟨0, rfl⟩
  settled _ h := by cases h
  clean _ := ⟨rfl, 0, rfl, TopicIndex.tail_new seqBaseDefault⟩
  published _ h := by cases h

variable {s s' : WritePath Blob} {a : WriteAction} {pre : List (WalRecord Blob)}

theorem noDelete_step (h : s.wal.AllFrames fun f => f.isDelete = false)
    (ha : step S spec s a = some s') (hw : a.isWrite = true) :
    s'.wal.AllFrames fun f => f.isDelete = false := by
  cases move_of_step ha with
  | enqueue now records g hl =>
    refine h.submit (fun f hf => ?_) _
    obtain ⟨i, hi, rfl⟩ := mem_iff_getElem.mp hf
    simp [appendFrames, appendFrame, WalRecord.isDelete]
  | control a f d extra passes hf happ hdel hextra =>
    refine h.submit (fun g hg => ?_) _
    rw [mem_singleton.mp hg]
    rcases hdel with ⟨_, _, _, _, _, rfl⟩ | ⟨_, _, _, rfl⟩ | ⟨_, _, rfl⟩
    · rfl
    all_goals cases hw
  | reserve now token records g n rest hr ht =>
    refine h.submit (fun g hg => ?_) _
    rw [mem_singleton.mp hg]
    rfl
  | wal a w hstep => exact h.step hstep
  | crash => cases hw
  | stage | enqueueFail | publish | remove => exact h

theorem published_step (hfs : durable spec = true) (h : Sheltered S spec pre s)
    (ha : step S spec s a = some s') (hw : a.isWrite = true) :
    ∀ p ∈ s'.published, ∃ now, appendFrame S spec.topicId now p.1 p.2 ∈ pre ∧
      appendFrame S spec.topicId now p.1 p.2 ∈ s.wal.committed.take s.wal.synced := by
  cases move_of_step ha with
  | publish a token records g n rest topic ht ho htopic =>
    intro p hp
    rcases mem_append.mp hp with hp | hp
    · exact h.published p hp
    obtain ⟨_, hsub⟩ := h.tickets _ (by rw [ht]; exact mem_cons_self) records g n rfl
    have hset := h.wf.settled_of_outcome hsub ho
    have hframe : appendFrame S spec.topicId n p.1 p.2 ∈
        appendFrames S spec.topicId n g records := mem_appendFrames_of_mem_zip hp
    exact ⟨n, h.settled _ hset rfl _ hframe (by simp [appendFrame, WalRecord.appendSeq?]),
      h.wf.durable _ hset rfl hfs _ hframe⟩
  | crash => cases hw
  | _ => exact h.published

theorem settled_step (h : Sheltered S spec pre s) (ha : step S spec s a = some s')
    (hw : a.isWrite = true) (hcond : commitsInOrder s a = true) (hbad : ¬ NoFailedAppend s'.wal) :
    ∀ e ∈ s'.wal.settled, e.2 = true → ∀ f ∈ e.1.frames, f.appendSeq? ≠ none → f ∈ pre := by
  have hcrash : ∀ k p n, a ≠ .crash k p n := by
    rintro k p n rfl
    cases hw
  rcases wal_of_step ha hcrash with ⟨frames, d, heq⟩ | heq | ⟨b, rfl, hb⟩
  · rw [heq]
    exact h.settled
  · rw [heq]
    exact h.settled
  cases (CommitLog.effect_of_step hb).1 with
  | idle k hc hs hp hd | leave picks sync hp hc hd =>
    rw [hd]
    exact h.settled
  | commit batch rest hp hp' hc hd hwr hs =>
    intro e he hok f hf happ
    rw [hd] at he
    rcases mem_append.mp he with he | he
    · obtain ⟨x, hx, rfl⟩ := mem_map.mp he
      rcases of_decide_eq_true hcond with hno | hctl
      · have hfail : s'.wal.failedFrames = s.wal.failedFrames :=
          CommitLog.failedFrames_of_settle hd
        exact absurd (fun f hf => hno f (hfail ▸ hf)) hbad
      · rw [hwr] at hctl
        exact absurd (hctl f (CommitLog.mem_framesOf hx hf)) happ
    · exact h.settled e he hok f hf happ
  | fail a batch rest hp hp' hc hd hs hb' =>
    intro e he hok f hf happ
    rw [hd] at he
    rcases mem_append.mp he with he | he
    · obtain ⟨x, hx, rfl⟩ := mem_map.mp he
      cases hok
    · exact h.settled e he hok f hf happ

/-- **Every step of a write that commits in order keeps the invariant.** -/
theorem Sheltered.step (hfs : durable spec = true) (h : Sheltered S spec pre s)
    (ha : step S spec s a = some s') (hw : a.isWrite = true) (hcond : commitsInOrder s a = true) :
    ∃ pre', Sheltered S spec pre' s' := by
  have hcrash : ∀ k p n, a ≠ .crash k p n := by
    rintro k p n rfl
    cases hw
  have hfront : a = .enqueueFail → FrontKept s := by
    rintro rfl
    exact of_decide_eq_true hcond
  have hbase := h.toBase.step ha
  have hdel := noDelete_step h.noDelete ha hw
  obtain ⟨hgrow, hsync⟩ := log_grows h.toBase ha hcrash
  have hpub := published_step hfs h ha hw
  by_cases hno : NoFailedAppend s'.wal
  · -- no batch has failed: the whole log is gapless
    obtain ⟨rfl, hnum⟩ := h.clean (appendSeqs_stream_step h.toBase ha hcrash hfront hno).1
    obtain ⟨k, hseqs, hnext⟩ := hnum.step h.toBase ha hcrash hfront hno
    refine ⟨s'.wal.committed, hbase, hdel, prefix_refl _,
      appendSeqs_of_prefix (prefix_append _ _) hseqs, ?_, fun _ => ⟨rfl, k, hseqs, hnext⟩, ?_⟩
    · exact fun e he hok f hf _ => hbase.wf.committed e he hok f hf
    · intro p hp
      obtain ⟨now, hmem, hmem'⟩ := hpub p hp
      exact ⟨now, hgrow.subset hmem, hsync _ hmem'⟩
  · -- a batch has failed: what was sheltered before stays in place
    refine ⟨pre, hbase, hdel, h.within.trans hgrow, h.gapless,
      settled_step h ha hw hcond hno, fun hno' => absurd hno' hno, ?_⟩
    intro p hp
    obtain ⟨now, hmem, hmem'⟩ := hpub p hp
    exact ⟨now, hmem, hsync _ hmem'⟩

theorem replayRecord_appendFrame (hS : S.RoundTrips) (ts : Nat) (r : StoredRecord) :
    (replayRecord S ts r.node r.tag (encodeRecordPayload S r.data r.meta)).data = r.data ∧
      (replayRecord S ts r.node r.tag (encodeRecordPayload S r.data r.meta)).meta = r.meta := by
  simp [replayRecord, decodeRecordPayload_encodeRecordPayload S hS]

/-- One single-record write of an `fsync` topic whose sync ends with `outcome`. -/
def fsyncWrite (outcome : LogAction) : List WriteAction :=
  [.stage [.plain (some "job")], .enqueue 0, .wal (.write 1), .wal outcome, .publish]

end WritePath

end Topics
