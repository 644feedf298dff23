import Topics.WritePath

/-!
# The `Append` frames of the log against the seqs of the topic

Replay admits an `Append` only at `head + 1`, so what recovery finds depends on whether the
`Append` frames of the log are numbered without a gap.  The live topic numbers them from the
end of its deque.  The two agree as long as no batch with `Append` frames fails.
-/

namespace Topics

open TopicState List

variable {Blob : Type}

/-! ## Numbering of a log -/

theorem appendSeqs_append (l l' : List (WalRecord Blob)) :
    appendSeqs (l ++ l') = appendSeqs l ++ appendSeqs l' :=
  filterMap_append

theorem appendSeqs_eq_nil {l : List (WalRecord Blob)} (h : ∀ f ∈ l, f.appendSeq? = none) :
    appendSeqs l = [] :=
  filterMap_eq_nil_iff.mpr h

theorem appendSeqs_of_prefix {l l' : List (WalRecord Blob)} {a k : Nat} (h : l <+: l')
    (hl : appendSeqs l' = List.range' a k) : ∃ m, appendSeqs l = List.range' a m := by
  obtain ⟨t, rfl⟩ := h
  have hpre : appendSeqs l <+: range' a k := by
    rw [← hl, appendSeqs_append]
    exact prefix_append _ _
  refine ⟨(appendSeqs l).length, ?_⟩
  refine ext_getElem (by simp) fun i hi hi' => ?_
  rw [hpre.getElem hi, getElem_range', getElem_range']

namespace WritePath

open Lib

variable {S : Serde Blob} {spec : TopicSpec}

variable {id : Nat} {now : Int} {g : StagedAppend} {records : List StoredRecord}
  {s s' : WritePath Blob} {a : WriteAction}

theorem appendSeqs_appendFrames (h : records.length = g.count) :
    appendSeqs (appendFrames S id now g records) = g.seqs := by
  have hmap : ∀ (l : List Nat) (rs : List StoredRecord), rs.length = l.length →
      appendSeqs (zipWith (appendFrame S id now) l rs) = l := by
    intro l
    induction l with
    | nil => intro rs _; rfl
    | cons a l ih =>
      intro rs hrs
      cases rs with
      | nil => cases hrs
      | cons r rs =>
        have htail := ih rs (Nat.succ.inj hrs)
        simpa [appendSeqs, appendFrame, WalRecord.appendSeq?] using htail
  exact hmap g.seqs records (by rw [h, StagedAppend.seqs, length_range'])

theorem mem_appendFrames_of_mem_zip {p : Nat × StoredRecord} (h : p ∈ g.seqs.zip records) :
    appendFrame S id now p.1 p.2 ∈ appendFrames S id now g records := by
  unfold appendFrames
  rw [← map_uncurry_zip_eq_zipWith]
  exact mem_map.mpr ⟨p, h, rfl⟩

/-! ## One step -/

/-- The seq of the next record that is enqueued: the staged batch starts there, or the next
batch will. -/
def nextSeq (s : WritePath Blob) : Nat :=
  match s.locked with
  | none => s.topic.index.tail
  | some (_, g) => g.start

/-- No batch with an `Append` frame has failed. -/
def NoFailedAppend (w : CommitLog (WalRecord Blob)) : Prop :=
  ∀ f ∈ w.failedFrames, f.appendSeq? = none

instance (w : CommitLog (WalRecord Blob)) : Decidable (NoFailedAppend w) :=
  inferInstanceAs (Decidable (∀ f ∈ w.failedFrames, f.appendSeq? = none))

/-- Nothing was reclaimed at the front of the deque since the batch was staged. -/
def FrontKept (s : WritePath Blob) : Prop :=
  ∀ b ∈ s.locked, s.topic.index.records.length = b.2.preLen + b.2.count

instance (s : WritePath Blob) : Decidable (FrontKept s) :=
  inferInstanceAs
    (Decidable (∀ b ∈ s.locked, s.topic.index.records.length = b.2.preLen + b.2.count))

theorem appendSeqs_stream_of_effect {w w' : CommitLog (WalRecord Blob)} {a : LogAction}
    (h : CommitLog.Effect w w' a) (hno : NoFailedAppend w') :
    NoFailedAppend w ∧ appendSeqs w'.stream = appendSeqs w.stream := by
  unfold CommitLog.stream
  cases h with
  | idle k hc hs hp hd =>
    refine ⟨?_, by rw [hc, hp]⟩
    unfold NoFailedAppend CommitLog.failedFrames at hno
    rw [hd] at hno
    exact hno
  | commit batch rest hp hp' hc hd hw hs =>
    have hfail : w'.failedFrames = w.failedFrames := CommitLog.failedFrames_of_settle hd
    refine ⟨fun f hf => hno f (hfail ▸ hf), ?_⟩
    rw [hc, hp, hp', CommitLog.framesOf_append, append_assoc]
  | fail a batch rest hp hp' hc hd hs ha =>
    have hfail : w'.failedFrames = CommitLog.framesOf batch ++ w.failedFrames :=
      CommitLog.failedFrames_of_settle hd
    unfold NoFailedAppend at hno
    rw [hfail] at hno
    have hbatch : appendSeqs (CommitLog.framesOf batch) = [] :=
      appendSeqs_eq_nil fun f hf => hno f (mem_append_left _ hf)
    refine ⟨fun f hf => hno f (mem_append_right _ hf), ?_⟩
    rw [hc, hp, hp', CommitLog.framesOf_append]
    simp only [appendSeqs_append, hbatch, nil_append]
  | leave picks sync hp hc hd hs =>
    have hfail : w'.failedFrames = w.failedFrames := by
      unfold CommitLog.failedFrames
      rw [hd]
    have hw : NoFailedAppend w := fun f hf => hno f (hfail ▸ hf)
    have hgarbage : appendSeqs (w.garbage picks) = [] :=
      appendSeqs_eq_nil fun f hf => hw f (CommitLog.mem_failedFrames_of_mem_garbage hf)
    refine ⟨hw, ?_⟩
    rw [hc, hp]
    simp only [appendSeqs_append, hgarbage, append_nil]

theorem stream_submit (w : CommitLog (WalRecord Blob)) (frames : List (WalRecord Blob))
    (d : Bool) : (w.submit frames d).stream = w.stream ++ frames := by
  simp [CommitLog.stream, CommitLog.submit, CommitLog.pending, CommitLog.framesOf,
    append_assoc]

/-- **One step extends the numbering of the log by what it takes from the topic.**  Only
`enqueue` takes anything; a refused batch gives its seqs back if the front of the deque did
not move meanwhile. -/
theorem appendSeqs_stream_step (h : Base S spec s) (ha : WritePath.step S spec s a = some s')
    (hcrash : ∀ k p n, a ≠ .crash k p n) (hfront : a = .enqueueFail → FrontKept s)
    (hno : NoFailedAppend s'.wal) :
    NoFailedAppend s.wal ∧ ∃ n,
      appendSeqs s'.wal.stream = appendSeqs s.wal.stream ++ List.range' s.nextSeq n ∧
      s'.nextSeq = s.nextSeq + n ∧ (s.locked = none → n = 0) := by
  -- a control frame changes neither the numbering nor the deque
  have hcontrol : ∀ (f : WalRecord Blob) (d : Bool), f.appendSeq? = none →
      appendSeqs (s.wal.submit [f] d).stream = appendSeqs s.wal.stream := by
    intro f d hf
    rw [stream_submit, appendSeqs_append,
      appendSeqs_eq_nil (l := [f]) (fun g hg => by rw [mem_singleton.mp hg]; exact hf),
      append_nil]
  cases move_of_step ha with
  | stage records hl hr =>
    refine ⟨hno, 0, (append_nil _).symm, ?_, fun _ => rfl⟩
    simp only [nextSeq, hl]
    rfl
  | enqueue now records g hl =>
    obtain ⟨hlen, _, _, htail⟩ := h.locked records g hl
    have hstart : s.nextSeq = g.start := by simp only [nextSeq, hl]
    refine ⟨hno, g.count, ?_, ?_, fun hn => by rw [hn] at hl; cases hl⟩
    · rw [stream_submit, appendSeqs_append, appendSeqs_appendFrames hlen, hstart]
      rfl
    · rw [hstart, htail]
      rfl
  | enqueueFail records g hl =>
    obtain ⟨_, hpos, _, htail⟩ := h.locked records g hl
    refine ⟨hno, 0, (append_nil _).symm, ?_, fun _ => rfl⟩
    have hkept : s.topic.index.records.length = g.preLen + g.count := hfront rfl _ hl
    simp only [nextSeq, hl, rollbackStaged]
    rw [if_neg (show ¬ g.count = 0 by omega), TopicIndex.tail_truncate]
    unfold TopicIndex.tail at htail
    omega
  | control _ f d extra passes hf happ hdel hextra =>
    exact ⟨hno, 0, (hcontrol f d happ).trans (append_nil _).symm, rfl, fun _ => rfl⟩
  | reserve now token records g n rest hr ht =>
    exact ⟨hno, 0, (hcontrol _ true rfl).trans (append_nil _).symm, rfl, fun _ => rfl⟩
  | wal a w hw =>
    obtain ⟨hno', hseqs⟩ := appendSeqs_stream_of_effect (CommitLog.effect_of_step hw).1 hno
    exact ⟨hno', 0, hseqs.trans (append_nil _).symm, rfl, fun _ => rfl⟩
  | publish a token records g n rest topic ht ho htopic =>
    refine ⟨hno, 0, (append_nil _).symm, ?_, fun _ => rfl⟩
    have hix : topic.index = s.topic.index := by
      rcases htopic with ⟨rfl, _⟩ | ⟨_, _, _, _, rfl⟩
      all_goals rfl
    simp only [nextSeq, publishBatch, publishStagedNoSeal_index, hix]
    rfl
  | remove a topic tickets reserving passes hsteady htick =>
    refine ⟨hno, 0, (append_nil _).symm, ?_, fun _ => rfl⟩
    simp only [nextSeq, hsteady.tail]
    rfl
  | crash keep picks now topic hk hk' hrec => exact absurd rfl (hcrash keep picks now)

/-- The `Append` frames of the log and of everything queued for it are numbered from 1 without
a gap, and the topic continues the numbering. -/
def Numbered (s : WritePath Blob) : Prop :=
  ∃ k, appendSeqs s.wal.stream = List.range' 1 k ∧ s.nextSeq = k + 1

theorem Numbered.step (hnum : Numbered s) (h : Base S spec s)
    (ha : WritePath.step S spec s a = some s') (hcrash : ∀ k p n, a ≠ .crash k p n)
    (hfront : a = .enqueueFail → FrontKept s) (hno : NoFailedAppend s'.wal) : Numbered s' := by
  obtain ⟨k, hseqs, hnext⟩ := hnum
  obtain ⟨_, n, hseqs', hnext', _⟩ := appendSeqs_stream_step h ha hcrash hfront hno
  refine ⟨k + n, ?_, by omega⟩
  rw [hseqs', hseqs, hnext, Nat.add_comm k 1, range'_append_1]

theorem wal_of_step (ha : WritePath.step S spec s a = some s')
    (hcrash : ∀ k p n, a ≠ .crash k p n) :
    (∃ frames d, s'.wal = s.wal.submit frames d) ∨ s'.wal = s.wal ∨
      ∃ b, a = .wal b ∧ s.wal.step b = some s'.wal := by
  cases move_of_step ha with
  | enqueue | control | reserve => exact Or.inl ⟨_, _, rfl⟩
  | wal b w hw => exact Or.inr (Or.inr ⟨b, rfl, hw⟩)
  | crash keep picks now => exact absurd rfl (hcrash keep picks now)
  | stage | enqueueFail | publish | remove => exact Or.inr (Or.inl rfl)

theorem log_grows (h : Base S spec s) (ha : WritePath.step S spec s a = some s')
    (hcrash : ∀ k p n, a ≠ .crash k p n) :
    s.wal.committed <+: s'.wal.committed ∧
      ∀ f ∈ s.wal.committed.take s.wal.synced, f ∈ s'.wal.committed.take s'.wal.synced := by
  rcases wal_of_step ha hcrash with ⟨frames, d, hw⟩ | hw | ⟨b, _, hw⟩
  · rw [hw]
    exact ⟨prefix_refl _, fun f hf => hf⟩
  · rw [hw]
    exact ⟨prefix_refl _, fun f hf => hf⟩
  · have heff := (CommitLog.effect_of_step hw).1
    exact ⟨CommitLog.committed_prefix_of_effect heff,
      fun f hf => CommitLog.mem_synced_of_effect h.wf.synced_le heff hf⟩

/-! ## Recovery -/

/-- **What replay makes of a log whose first part is gapless**: every `Append` of that part is
live at its seq, unless a `Delete` of the log removed it. -/
theorem recover_prefix (hS : S.RoundTrips) (hp : spec.config.usesPersistentRecordStore = true)
    (now : Int) {frames pre : List (WalRecord Blob)}
    (hf : ∀ f ∈ frames, f.addresses spec.topicId = true) (hpre : pre <+: frames) {m : Nat}
    (hseqs : appendSeqs pre = List.range' 1 m) :
    ∃ topic, spec.recover S now frames = some topic ∧
      ∀ id q ts node tag data, WalRecord.append id q ts node tag data ∈ pre →
        topic.index.live q = some (replayRecord S ts node tag data) ∨
          ∃ f ∈ frames, f.Removes q tag topic.floors.top := by
  refine ⟨_, TopicSpec.recover_eq hS spec now hf, ?_⟩
  intro id q ts node tag data hmem
  have hsound : spec.fresh.Sound := sound_new hp
  have hmid := hsound.replayAll S pre
  obtain ⟨rest, rfl⟩ := hpre
  rw [live_applyHeadWatermark, applyHeadWatermark_floors,
    replayAll_append]
  -- the gapless part puts the record at its seq, the rest of the log keeps it
  rcases live_of_mem_replayAll S hsound hseqs hmem with hlive | ⟨f, hfm, hdel, hrem⟩
  · rcases live_replayAll S hmid hlive rest with hlive' | ⟨f, hfm, hrem⟩
    · exact Or.inl hlive'
    · exact Or.inr ⟨f, mem_append_right _ hfm, hrem⟩
  · refine Or.inr ⟨f, mem_append_left _ hfm, hdel, hrem.imp_left fun htop => ?_⟩
    exact htop.trans (floors_le_replayAll S hmid rest).top

end WritePath

end Topics
